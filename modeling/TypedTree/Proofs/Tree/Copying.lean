import Mathlib.Data.List.Flatten
import Mathlib.Data.List.Nodup
import Mathlib.Data.List.Pairwise
import TypedTree.Proofs.Tree.Holding
import TypedTree.Proofs.Tree.Mapping

/-! Copies of trees. A copy is rebuilt from the leaves up, so its nodes are numbered in the order in which they stand in
    it, what a node holds before the node, and no two of its places share a node. Otherwise it is as the tree it is made
    from: node for node of the same variant, with the same values in the fields that hold no nodes. -/

namespace TypedTree

/-! ### Identities -/

/-- The identities in a tree, those that a node holds before its own. -/
def Node.ids (n : Node) : List NodeId := n.occurrences.map Node.id

def Value.ids (v : Value) : List NodeId := v.nodes.flatMap Node.ids

/-- The identities in an item of a list, if it is a node. -/
def Value.itemIds (v : Value) : List NodeId := (v.asNode?.map Node.ids).getD []

theorem Node.ids_eq (n : Node) : n.ids = n.values.flatMap Value.ids ++ [n.id] := by
  rw [ids, occurrences_eq, List.map_append, List.map_flatMap, children, List.flatMap_assoc]
  rfl

theorem Value.ids_items (items : List Value) : (items.filterMap asNode?).flatMap Node.ids = items.flatMap itemIds := by
  induction items with
  | nil => rfl
  | cons v items ih =>
    cases v with
    | node c => exact congrArg (c.ids ++ ·) ih
    | _ => exact ih

theorem Node.id_mem_ids (n : Node) : n.id ∈ n.ids := List.mem_map_of_mem n.self_mem_occurrences

/-! ### Numbering -/

/-- In every workspace the action takes `k` identities from the supply, which are those of its value, in order. -/
def Numbers {α : Type} (ids : α → List NodeId) (k : Nat) (x : BuildM α) (P : α → Prop) : Prop :=
  ∀ w, ∃ a, built x w = (.ok a, { w with nextId := w.nextId + k }) ∧ ids a = List.range' w.nextId k ∧ P a

namespace Numbers
variable {α β : Type} {ids : α → List NodeId} {ids' : β → List NodeId} {k : Nat} {x : BuildM α} {P : α → Prop}

theorem pure {a : α} (hids : ids a = []) (hp : P a) : Numbers ids 0 (Pure.pure a) P := fun _ => ⟨a, rfl, hids, hp⟩

theorem map {f : α → β} {Q : β → Prop} (hx : Numbers ids k x P) (hids : ∀ a, ids' (f a) = ids a)
    (hp : ∀ a, P a → Q (f a)) : Numbers ids' k (f <$> x) Q := by
  intro w
  obtain ⟨a, hrun, hnum, ha⟩ := hx w
  refine ⟨f a, ?_, (hids a).trans hnum, hp a ha⟩
  rw [map_eq_pure_bind, built_bind, hrun]
  rfl

/-- The value is known to be what the action gives. -/
theorem given (hx : Numbers ids k x P) : Numbers ids k x fun a => (∃ w w', built x w = (.ok a, w')) ∧ P a := by
  intro w
  obtain ⟨a, hrun, hnum, ha⟩ := hx w
  exact ⟨a, hrun, hnum, ⟨w, _, hrun⟩, ha⟩

theorem mapM {source : α → List NodeId} {f : α → BuildM β} {R : α → β → Prop} {xs : List α}
    (h : ∀ x ∈ xs, Numbers ids' (source x).length (f x) (R x)) :
    Numbers (List.flatMap ids') (xs.flatMap source).length (xs.mapM f) (List.Forall₂ R xs) := by
  induction xs with
  | nil => exact pure rfl .nil
  | cons x xs ih =>
    rw [List.forall_mem_cons] at h
    intro w
    obtain ⟨y, hfirst, hnum, hy⟩ := h.1 w
    obtain ⟨ys, hrest, hnums, hys⟩ := ih h.2 { w with nextId := w.nextId + (source x).length }
    refine ⟨y :: ys, ?_, ?_, .cons hy hys⟩
    · rw [List.mapM_cons, built_bind, hfirst]
      show built (xs.mapM f >>= fun ys => Pure.pure (y :: ys)) _ = _
      rw [built_bind, hrest, List.flatMap_cons, List.length_append, ← Nat.add_assoc]
      rfl
    · rw [List.flatMap_cons, hnum, hnums, List.flatMap_cons, List.length_append, List.range'_append_1]

end Numbers

/-! ### Values with other nodes -/

/-- A value with another node in its place, if it is a node, and the same value otherwise. -/
inductive Value.NodeMapped (R : Node → Node → Prop) : Value → Value → Prop
  | node {c c'} (h : R c c') : NodeMapped R (.node c) (.node c')
  | other {v} (h : v.asNode? = none) : NodeMapped R v v

/-- A value with other nodes in the places of those that it holds. -/
inductive Value.HeldMapped (R : Node → Node → Prop) : Value → Value → Prop
  | single {v v'} (hv : v.items? = none) (h : NodeMapped R v v') : HeldMapped R v v'
  | list {xs ys} (h : List.Forall₂ (NodeMapped R) xs ys) : HeldMapped R (.list xs) (.list ys)
  | set {xs ys} (h : List.Forall₂ (NodeMapped R) xs ys) : HeldMapped R (.set xs) (.set ys)

section Mapped
variable {R : Node → Node → Prop} {v v' : Value} {xs ys : List Value}

theorem forall₂_asNode? (h : List.Forall₂ (Value.NodeMapped R) xs ys) :
    List.Forall₂ R (xs.filterMap Value.asNode?) (ys.filterMap Value.asNode?) := by
  induction h with
  | nil => exact .nil
  | cons hxy _ ih =>
    cases hxy with
    | node hc => exact .cons hc ih
    | other hv =>
      rw [List.filterMap_cons_none hv, List.filterMap_cons_none hv]
      exact ih

theorem Value.HeldMapped.nodes (h : v.HeldMapped R v') : List.Forall₂ R v.nodes v'.nodes := by
  cases h with
  | single hv hm =>
    cases hm with
    | node hc => exact .cons hc .nil
    | other hn =>
      cases v with
      | node c => cases hn
      | list items => cases hv
      | set items => cases hv
      | _ => exact .nil
  | list h => exact forall₂_asNode? h
  | set h => exact forall₂_asNode? h

theorem Value.HeldMapped.of_nodes_eq_nil (h : v.nodes = []) : v.HeldMapped R v := by
  have items : ∀ {items : List Value}, items.filterMap asNode? = [] → List.Forall₂ (NodeMapped R) items items :=
    fun h => List.forall₂_same.mpr fun w hw => .other (List.filterMap_eq_nil_iff.mp h w hw)
  cases v with
  | list vs => exact .list (items h)
  | set vs => exact .set (items h)
  | node c => cases h
  | _ => exact .single rfl (.other rfl)

/-- What holds everywhere in the value and in the new nodes holds everywhere in the new value. -/
theorem Value.HeldMapped.everywhere {p : Node → Prop} (h : v.HeldMapped R v') (hv : v.Everywhere p)
    (hnodes : ∀ c ∈ v.nodes, ∀ c', R c c' → c'.Everywhere p) : v'.Everywhere p := by
  have items : ∀ {xs ys : List Value}, List.Forall₂ (NodeMapped R) xs ys → (∀ x ∈ xs, x.Everywhere p) →
      (∀ c ∈ xs.filterMap asNode?, ∀ c', R c c' → c'.Everywhere p) → ∀ y ∈ ys, y.Everywhere p := by
    intro xs ys hm hxs hnodes y hy
    obtain ⟨x, hx, hxy⟩ := exists_of_forall₂ hm hy
    cases hxy with
    | node hc => exact everywhere_node.mpr (hnodes _ (List.mem_filterMap.mpr ⟨_, hx, rfl⟩) _ hc)
    | other => exact hxs y hx
  cases h with
  | single _ hm =>
    cases hm with
    | node hc => exact everywhere_node.mpr (hnodes _ (List.mem_singleton.mpr rfl) _ hc)
    | other => exact hv
  | list hm => exact everywhere_list.mpr (items hm (everywhere_list.mp hv) hnodes)
  | set hm => exact everywhere_set.mpr (items hm (everywhere_set.mp hv) hnodes)

/-- Types ask nodes for their variants only. -/
theorem FieldType.admits_node_congr {c c' : Node} (h : c'.variant = c.variant) (type : FieldType) :
    type.admits (.node c') = type.admits (.node c) := by
  induction type with
  | optional inner ih => exact congrArg (Value.isAbsent (.node c) || ·) ih
  | scalar s => cases s <;> rfl
  | node cls => exact congrArg (·.isA cls) h
  | _ => rfl

/-- Items stay distinct when the nodes among them get identities that are distinct. -/
theorem distinct_of_nodeMapped (h : List.Forall₂ (Value.NodeMapped R) xs ys) (hd : Value.Distinct xs)
    (hids : (ys.flatMap Value.itemIds).Nodup) : Value.Distinct ys := by
  induction h with
  | nil => exact .nil
  | @cons x y xs ys hxy hrest ih =>
    obtain ⟨hx, hxs⟩ := List.pairwise_cons.mp hd
    rw [List.flatMap_cons, List.nodup_append] at hids
    obtain ⟨-, hidsRest, hdisjoint⟩ := hids
    refine List.pairwise_cons.mpr ⟨fun z hz => ?_, ih hxs hidsRest⟩
    obtain ⟨u, hu, huz⟩ := exists_of_forall₂ hrest hz
    -- Two nodes are told apart by their identities, two other values as before, and a node is no other value.
    cases hxy with
    | @node c c' _ =>
      cases huz with
      | @node e e' _ =>
        have hne := hdisjoint c'.id c'.id_mem_ids e'.id (List.mem_flatMap.mpr ⟨_, hz, e'.id_mem_ids⟩)
        show (c'.id == e'.id) = false
        exact beq_eq_false_iff_ne.mpr hne
      | other hn => cases z <;> first | rfl | cases hn
    | other hn =>
      cases huz with
      | node => cases x <;> first | rfl | cases hn
      | other => exact hx z hu

theorem FieldType.admits_of_nodeMapped (hR : ∀ c c', R c c' → c'.variant = c.variant) (h : v.NodeMapped R v')
    {type : FieldType} (hadm : type.admits v = true) : type.admits v' = true := by
  cases h with
  | node hc => rwa [admits_node_congr (hR _ _ hc)]
  | other => exact hadm

/-- A type admits the value with the other nodes, if their variants are the same and their identities distinct. -/
theorem FieldType.admits_of_heldMapped (hR : ∀ c c', R c c' → c'.variant = c.variant) (h : v.HeldMapped R v')
    (hids : v'.ids.Nodup) {type : FieldType} (hadm : type.admits v = true) : type.admits v' = true := by
  have items : ∀ {item : FieldType} {xs ys : List Value}, List.Forall₂ (Value.NodeMapped R) xs ys →
      (∀ x ∈ xs, item.admits x = true) → ∀ y ∈ ys, item.admits y = true := by
    intro item xs ys h hall y hy
    obtain ⟨x, hx, hxy⟩ := exists_of_forall₂ h hy
    exact admits_of_nodeMapped hR hxy (hall x hx)
  cases h with
  | single _ hm => exact admits_of_nodeMapped hR hm hadm
  | @list xs ys hm =>
    induction type with
    | optional inner ih =>
      exact admits_optional_iff.mpr (.inr (ih ((admits_optional_iff.mp hadm).resolve_left nofun)))
    | list item =>
      obtain ⟨_, ⟨⟩, hall⟩ := admits_list_iff.mp hadm
      exact admits_list_iff.mpr ⟨ys, rfl, items hm hall⟩
    | scalar s => cases s <;> cases hadm
    | _ => cases hadm
  | @set xs ys hm =>
    induction type with
    | optional inner ih =>
      exact admits_optional_iff.mpr (.inr (ih ((admits_optional_iff.mp hadm).resolve_left nofun)))
    | set item =>
      obtain ⟨_, ⟨⟩, hall, hdistinct⟩ := admits_set_iff.mp hadm
      rw [Value.ids, Value.nodes, Value.ids_items] at hids
      exact admits_set_iff.mpr ⟨ys, rfl, items hm hall, distinct_of_nodeMapped hm hdistinct hids⟩
    | scalar s => cases s <;> cases hadm
    | _ => cases hadm

end Mapped

/-! ### Rebuilding with other nodes -/

section Rebuilding
variable {R : Node → Node → Prop} {g : Node → BuildM Node}

theorem mapNode_numbers {v : Value} (h : ∀ c, v = .node c → Numbers Node.ids c.ids.length (g c) (R c)) :
    Numbers Value.itemIds v.itemIds.length (v.mapNode g) (v.NodeMapped R) := by
  cases v with
  | node c => exact (h c rfl).map (fun _ => rfl) fun _ => .node
  | _ => exact .pure rfl (.other rfl)

theorem mapItems_numbers {items : List Value}
    (h : ∀ c ∈ items.filterMap Value.asNode?, Numbers Node.ids c.ids.length (g c) (R c)) :
    Numbers (List.flatMap Value.itemIds) (items.flatMap Value.itemIds).length (items.mapM (Value.mapNode g))
      (List.Forall₂ (Value.NodeMapped R) items) := by
  refine Numbers.mapM fun v hv => mapNode_numbers ?_
  rintro c rfl
  exact h c (List.mem_filterMap.mpr ⟨_, hv, rfl⟩)

theorem mapHeld_numbers {v : Value} (h : ∀ c ∈ v.nodes, Numbers Node.ids c.ids.length (g c) (R c)) :
    Numbers Value.ids v.ids.length (v.mapHeld g) (v.HeldMapped R) := by
  cases v with
  | node c =>
    rw [Value.ids, Value.nodes, List.flatMap_singleton]
    exact (h c (List.mem_singleton.mpr rfl)).map (fun c' => List.flatMap_singleton ..) fun c' hc => .single rfl (.node hc)
  | list items =>
    rw [Value.ids, Value.nodes, Value.ids_items]
    exact (mapItems_numbers h).map (fun ys => Value.ids_items ys) fun ys => .list
  | set items =>
    rw [Value.ids, Value.nodes, Value.ids_items]
    exact (mapItems_numbers h).map (fun ys => Value.ids_items ys) fun ys => .set
  | _ => exact .pure rfl (.single rfl (.other rfl))

/-- The new value of a field is admitted again. -/
theorem mapField_numbers (hR : ∀ c c', R c c' → c'.variant = c.variant) {kind : String} {f : Field} {v : Value}
    (hadm : f.type.admits v = true) (h : ∀ c ∈ v.nodes, Numbers Node.ids c.ids.length (g c) (R c)) :
    Numbers Value.ids v.ids.length (Node.mapField kind .children g (f, v)) fun v' =>
      v.HeldMapped R v' ∧ f.type.admits v' = true := by
  by_cases hf : f.isChild = true
  · intro w
    obtain ⟨v', hrun, hnum, hv'⟩ := mapHeld_numbers h w
    have hadm' := FieldType.admits_of_heldMapped hR hv' (hnum ▸ List.nodup_range') hadm
    refine ⟨v', ?_, hnum, hv', hadm'⟩
    rw [Node.mapField, if_pos (show Selector.children.selects f = true from hf), built_bind, hrun]
    show built (liftM (f.checked kind v')) _ = _
    rw [Field.checked, if_pos hadm']
    rfl
  · have hnil := FieldType.nodes_eq_nil hadm (by simpa [Field.isChild] using hf)
    rw [Node.mapField, if_neg (show ¬Selector.children.selects f = true from hf), Value.ids, hnil]
    exact .pure (by rw [Value.ids, hnil]; rfl) ⟨.of_nodes_eq_nil hnil, hadm⟩

end Rebuilding

/-! ### Copies -/

namespace Node

/-- `n'` is a copy of `n`, made in some workspace. -/
def CopyOf (n n' : Node) : Prop := ∃ w w', built n.copy w = (.ok n', w')

theorem copy_eq (n : Node) : n.copy =
    n.fields.mapM (mapField n.kind .children copy) >>= fun values => liftM (allocate n.variant values) :=
  (copy_eq_map n).trans (mapSmaller_eq n .children copy)

theorem CopyOf.variant {n n' : Node} (h : n.CopyOf n') : n'.variant = n.variant := by
  obtain ⟨w, w', hrun⟩ := h
  rw [copy_eq, built_bind_eq_ok] at hrun
  obtain ⟨values, w₁, -, halloc⟩ := hrun
  cases halloc
  rfl

/-- `n'` has the variant of `n` and, field by field, values of `n` with copies in the places of nodes. -/
structure Copied (n n' : Node) : Prop where
  variant : n'.variant = n.variant
  values : List.Forall₂ (Value.HeldMapped CopyOf) n.values n'.values
  fits : n'.Fits

/-- A tree is copied in every workspace, and the nodes of the copy get the next identities, in order. -/
theorem copy_numbers (n : Node) (h : n.Everywhere Fits) : Numbers ids n.ids.length n.copy n.Copied := by
  have held : ∀ v ∈ n.values, ∀ c ∈ v.nodes, Numbers ids c.ids.length c.copy c.CopyOf := by
    intro v hv c hc w
    have hmem : c ∈ n.children := List.mem_flatMap.mpr ⟨v, hv, hc⟩
    have := sizeOf_lt_of_mem_children hmem
    obtain ⟨c', hrun, hnum, hgiven, -⟩ := (copy_numbers c (h.child hmem)).given w
    exact ⟨c', hrun, hnum, hgiven⟩
  have hfits : n.Fits := h.here
  have hnames : n.fields.map Prod.fst = n.variant.fields := List.map_fst_zip (Nat.le_of_eq hfits.complete.symm)
  have hvals : n.fields.map Prod.snd = n.values := List.map_snd_zip (Nat.le_of_eq hfits.complete)
  have hfields : ∀ p ∈ n.fields, Numbers Value.ids p.2.ids.length (mapField n.kind .children copy p) fun v' =>
      p.2.HeldMapped CopyOf v' ∧ p.1.type.admits v' = true := fun p hp =>
    mapField_numbers (fun _ _ => CopyOf.variant) (List.forall₂_zip hfits hp) (held p.2 (mem_values_of_mem_fields hp))
  -- The node itself comes after everything that it holds.
  have hlength : n.ids.length = (n.fields.flatMap fun p => p.2.ids).length + 1 := by
    rw [ids_eq, List.length_append, ← hvals, List.flatMap_map]
    rfl
  intro w
  obtain ⟨values, hrun, hnum, hvalues⟩ := Numbers.mapM hfields w
  refine ⟨.mk (w.nextId + (n.fields.flatMap fun p => p.2.ids).length) n.variant values, ?_, ?_, rfl, ?_, ?_⟩
  · rw [copy_eq, built_bind, hrun, hlength]
    rfl
  · rw [ids_eq, hlength, List.range'_1_concat]
    exact congrArg (· ++ [_]) hnum
  · rw [← hvals, List.forall₂_map_left_iff]
    exact hvalues.imp fun _ _ hv => hv.1
  · show List.Forall₂ _ n.variant.fields values
    rw [← hnames, List.forall₂_map_left_iff]
    exact hvalues.imp fun _ _ hv => hv.2
termination_by sizeOf n

namespace CopyOf
variable {n n' : Node}

theorem copied (hc : n.CopyOf n') (h : n.Everywhere Fits) : n.Copied n' := by
  obtain ⟨w, w', hrun⟩ := hc
  obtain ⟨_, hcopy, -, hcopied⟩ := copy_numbers n h w
  cases hrun.symm.trans hcopy
  exact hcopied

/-- A copy has copies where the tree has nodes. -/
theorem held (hc : n.CopyOf n') (h : n.Everywhere Fits) (name : String) :
    List.Forall₂ CopyOf (n.held name) (n'.held name) := by
  have find : ∀ {fs : List Field} {vs vs' : List Value}, List.Forall₂ (Value.HeldMapped CopyOf) vs vs' →
      List.Forall₂ CopyOf (((fs.zip vs).find? fun e => e.1.name == name).elim [] (·.2.nodes))
        (((fs.zip vs').find? fun e => e.1.name == name).elim [] (·.2.nodes)) := by
    intro fs vs vs' hvs
    induction hvs generalizing fs with
    | nil => cases fs <;> exact .nil
    | cons hv _ ih =>
      cases fs with
      | nil => exact .nil
      | cons f fs =>
        rw [List.zip_cons_cons, List.zip_cons_cons, List.find?_cons, List.find?_cons]
        cases f.name == name with
        | true => exact hv.nodes
        | false => exact ih
  have heq : ∀ m : Node, m.held name = (m.fields.find? fun e => e.1.name == name).elim [] (·.2.nodes) := by
    intro m
    rw [Node.held, get]
    cases m.fields.find? fun e => e.1.name == name <;> rfl
  rw [heq, heq, fields, fields, hc.variant]
  exact find (hc.copied h).values

end CopyOf

/-- A copy is built from the variants that the tree is built from. -/
theorem builtFrom_of_copyOf {vs : List Variant} (n n' : Node) (h : n.BuiltFrom vs) (hc : n.CopyOf n') :
    n'.BuiltFrom vs := by
  have hcopied := hc.copied h.fits_everywhere
  refine builtFrom_iff.mpr ⟨⟨hcopied.variant ▸ h.variant_mem, hcopied.fits⟩, fun v' hv' => ?_⟩
  obtain ⟨v, hv, hm⟩ := exists_of_forall₂ hcopied.values hv'
  refine hm.everywhere ((builtFrom_iff.mp h).2 v hv) fun c hmem c' hcc' => ?_
  have hchild : c ∈ n.children := List.mem_flatMap.mpr ⟨v, hv, hmem⟩
  have := sizeOf_lt_of_mem_children hchild
  exact builtFrom_of_copyOf c c' (h.child hchild) hcc'
termination_by sizeOf n

/-! ### Trees that share nothing -/

/-- Every node of the tree stands at one place. -/
def Unshared (n : Node) : Prop := n.ids.Nodup

theorem ids_eq_children (n : Node) : n.ids = n.children.flatMap ids ++ [n.id] := by
  rw [ids, occurrences_eq, List.map_append, List.map_flatMap]
  rfl

theorem mem_occurrences_iff {n m : Node} : m ∈ n.occurrences ↔ (∃ c ∈ n.children, m ∈ c.occurrences) ∨ m = n := by
  rw [occurrences_eq, List.mem_append, List.mem_flatMap, List.mem_singleton]

theorem mem_occurrences_of_holder {n m c : Node} (hm : m ∈ n.occurrences) (hc : c ∈ m.children) : c ∈ n.occurrences := by
  rcases mem_occurrences_iff.mp hm with ⟨x, hx, hmx⟩ | rfl
  · have := sizeOf_lt_of_mem_children hx
    exact mem_occurrences_of_child hx (mem_occurrences_of_holder hmx hc)
  · exact mem_occurrences_of_child hc c.self_mem_occurrences
termination_by sizeOf n

/-- What a node of the tree holds stands in the tree below one of the children, or is one of them. -/
theorem exists_child_of_holder {n m c : Node} (hm : m ∈ n.occurrences) (hc : c ∈ m.children) :
    ∃ x ∈ n.children, c.id ∈ x.ids := by
  rcases mem_occurrences_iff.mp hm with ⟨x, hx, hmx⟩ | rfl
  · exact ⟨x, hx, List.mem_map_of_mem (mem_occurrences_of_holder hmx hc)⟩
  · exact ⟨c, hc, c.id_mem_ids⟩

namespace Unshared
variable {n : Node} (h : n.Unshared)
include h

theorem child {c : Node} (hc : c ∈ n.children) : c.Unshared := by
  have hsub : ([c].flatMap ids).Sublist (n.children.flatMap ids) := (List.singleton_sublist.mpr hc).flatMap ids
  rw [List.flatMap_singleton] at hsub
  rw [Unshared, ids_eq_children] at h
  exact (List.nodup_append.mp h).1.sublist hsub

/-- No two of the children are the same node. -/
theorem children : (n.children.map Node.id).Nodup := by
  have hsub : (n.children.flatMap fun c => [c.id]).Sublist (n.children.flatMap ids) :=
    List.Sublist.flatMap_right _ fun c _ => List.singleton_sublist.mpr c.id_mem_ids
  rw [Unshared, ids_eq_children] at h
  rw [List.map_eq_flatMap]
  exact (List.nodup_append.mp h).1.sublist hsub

/-- What stands below two of the children makes them one. -/
theorem eq_of_mem_ids {x y : Node} (hx : x ∈ n.children) (hy : y ∈ n.children) {i : NodeId} (hix : i ∈ x.ids)
    (hiy : i ∈ y.ids) : x = y := by
  rw [Unshared, ids_eq_children] at h
  have hdisjoint := (List.nodup_flatMap.mp (List.nodup_append.mp h).1).2
  have : Std.Symm (Function.onFun List.Disjoint ids) := ⟨fun _ _ => List.disjoint_symm⟩
  by_contra hne
  exact hdisjoint.forall hx hy hne hix hiy

/-- What a node of the tree holds is not the root. -/
theorem id_ne {m c : Node} (hm : m ∈ n.occurrences) (hc : c ∈ m.children) : c.id ≠ n.id := by
  obtain ⟨x, hx, hcx⟩ := exists_child_of_holder hm hc
  rw [Unshared, ids_eq_children] at h
  exact (List.nodup_append.mp h).2.2 _ (List.mem_flatMap.mpr ⟨x, hx, hcx⟩) _ (List.mem_singleton.mpr rfl)

end Unshared

/-- In a tree that shares nothing a node is held by one node only. -/
theorem Unshared.holder_eq (n : Node) (h : n.Unshared) {m m' c c' : Node} (hm : m ∈ n.occurrences)
    (hm' : m' ∈ n.occurrences) (hc : c ∈ m.children) (hc' : c' ∈ m'.children) (hid : c.id = c'.id) : m = m' := by
  -- A child of the root is not held further down, where it would stand below itself or below another child.
  have top : ∀ {x m c c' : Node}, x ∈ n.children → m ∈ x.occurrences → c ∈ m.children → c' ∈ n.children →
      c.id ≠ c'.id := by
    intro x m c c' hx hm hc hc' hid
    have hcx : c.id ∈ x.ids := List.mem_map_of_mem (mem_occurrences_of_holder hm hc)
    obtain rfl := h.eq_of_mem_ids hx hc' hcx (hid ▸ c'.id_mem_ids)
    exact (h.child hx).id_ne hm hc hid
  rcases mem_occurrences_iff.mp hm with ⟨x, hx, hmx⟩ | rfl
  · rcases mem_occurrences_iff.mp hm' with ⟨y, hy, hmy⟩ | rfl
    · have hcx : c.id ∈ x.ids := List.mem_map_of_mem (mem_occurrences_of_holder hmx hc)
      have hcy : c.id ∈ y.ids := hid ▸ List.mem_map_of_mem (mem_occurrences_of_holder hmy hc')
      obtain rfl := h.eq_of_mem_ids hx hy hcx hcy
      have := sizeOf_lt_of_mem_children hx
      exact Unshared.holder_eq x (h.child hx) hmx hmy hc hc' hid
    · exact (top hx hmx hc hc' hid).elim
  · rcases mem_occurrences_iff.mp hm' with ⟨y, hy, hmy⟩ | rfl
    · exact (top hy hmy hc' hc hid.symm).elim
    · rfl
termination_by sizeOf n

/-- A copy shares nothing. -/
theorem unshared_of_copyOf {n n' : Node} (hc : n.CopyOf n') (h : n.Everywhere Fits) : n'.Unshared := by
  obtain ⟨w, w', hrun⟩ := hc
  obtain ⟨_, hcopy, hids, -⟩ := copy_numbers n h w
  cases hrun.symm.trans hcopy
  rw [Unshared, hids]
  exact List.nodup_range'

end Node
end TypedTree
