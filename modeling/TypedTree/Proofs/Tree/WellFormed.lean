import Mathlib.Data.List.Forall2
import TypedTree.Tree.Admission
import TypedTree.Tree.Fields

/-! Well-formed trees. A node fits its variant when it has one value for each field, admitted by the type of the
    field; a tree is built from some variants when each of its nodes, at any depth, has one of them and fits it.
    Every field of a node that fits is read at its declared type without failing. -/

namespace TypedTree

/-! ### Lists side by side -/

section Forall₂
variable {α β γ : Type} {R : α → β → Prop} {xs : List α} {ys : List β}

theorem exists_of_forall₂ (h : List.Forall₂ R xs ys) {y : β} (hy : y ∈ ys) : ∃ x ∈ xs, R x y := by
  induction h with
  | nil => cases hy
  | @cons x _ _ _ hxy _ ih =>
    rcases List.mem_cons.mp hy with rfl | hy
    · exact ⟨x, List.mem_cons_self, hxy⟩
    · obtain ⟨x, hx, hxy⟩ := ih hy
      exact ⟨x, List.mem_cons_of_mem _ hx, hxy⟩

theorem exists_of_forall₂_left (h : List.Forall₂ R xs ys) {x : α} (hx : x ∈ xs) : ∃ y ∈ ys, R x y :=
  exists_of_forall₂ h.flip hx

theorem forall₂_and_right {p : β → Prop} (h : List.Forall₂ (fun x y => R x y ∧ p y) xs ys) :
    List.Forall₂ R xs ys ∧ ∀ y ∈ ys, p y := by
  induction h with
  | nil => exact ⟨.nil, by simp⟩
  | cons hxy _ ih => exact ⟨.cons hxy.1 ih.1, List.forall_mem_cons.mpr ⟨hxy.2, ih.2⟩⟩

theorem flatMap_eq_of_forall₂ {f : α → List γ} {g : β → List γ} (h : List.Forall₂ R xs ys)
    (hfg : ∀ x y, R x y → g y = f x) : ys.flatMap g = xs.flatMap f := by
  induction h with
  | nil => rfl
  | cons hxy _ ih => rw [List.flatMap_cons, List.flatMap_cons, hfg _ _ hxy, ih]

theorem forall₂_imp_of_mem {S : α → β → Prop} (h : List.Forall₂ R xs ys) (himp : ∀ x ∈ xs, ∀ y ∈ ys, R x y → S x y) :
    List.Forall₂ S xs ys := by
  induction h with
  | nil => exact .nil
  | cons hxy _ ih =>
    refine .cons (himp _ List.mem_cons_self _ List.mem_cons_self hxy) (ih fun x hx y hy => ?_)
    exact himp x (List.mem_cons_of_mem _ hx) y (List.mem_cons_of_mem _ hy)

/-- What two lists are made into, entry by entry. -/
theorem forall₂_both {δ : Type} {S : α → γ → Prop} {T : β → δ → Prop} {zs : List γ} {us : List δ}
    (h : List.Forall₂ R xs ys) (hs : List.Forall₂ S xs zs) (ht : List.Forall₂ T ys us) :
    List.Forall₂ (fun z u => ∃ x y, R x y ∧ S x z ∧ T y u) zs us := by
  induction h generalizing zs us with
  | nil =>
    cases hs
    cases ht
    exact .nil
  | @cons x y _ _ hxy _ ih =>
    obtain _ | ⟨hxz, hs⟩ := hs
    obtain _ | ⟨hyu, ht⟩ := ht
    exact .cons ⟨x, y, hxy, hxz, hyu⟩ (ih hs ht)

end Forall₂

/-! ### Every node of a tree -/

mutual

/-- `p` holds of the node and of every node inside it, at any depth. -/
def Node.Everywhere (p : Node → Prop) : Node → Prop
  | .mk id v values => p (.mk id v values) ∧ ValuesEverywhere p values

/-- `p` holds of every node inside the value. -/
def Value.Everywhere (p : Node → Prop) : Value → Prop
  | .node n => n.Everywhere p
  | .list items => ValuesEverywhere p items
  | .set items => ValuesEverywhere p items
  | _ => True

def ValuesEverywhere (p : Node → Prop) : List Value → Prop
  | [] => True
  | v :: vs => v.Everywhere p ∧ ValuesEverywhere p vs

end

section Everywhere
variable {p q : Node → Prop}

theorem valuesEverywhere_iff {vs : List Value} : ValuesEverywhere p vs ↔ ∀ v ∈ vs, v.Everywhere p := by
  induction vs with
  | nil => simp [ValuesEverywhere]
  | cons v vs ih => simp [ValuesEverywhere, ih]

theorem Node.everywhere_iff {n : Node} : n.Everywhere p ↔ p n ∧ ∀ v ∈ n.values, v.Everywhere p := by
  obtain ⟨id, v, values⟩ := n
  rw [Node.Everywhere, valuesEverywhere_iff]
  rfl

theorem Node.Everywhere.here {n : Node} (h : n.Everywhere p) : p n := (Node.everywhere_iff.mp h).1

@[simp] theorem Value.everywhere_node {n : Node} : (Value.node n).Everywhere p ↔ n.Everywhere p := by
  rw [Value.Everywhere]

@[simp] theorem Value.everywhere_list {items : List Value} :
    (Value.list items).Everywhere p ↔ ∀ v ∈ items, v.Everywhere p := by
  rw [Value.Everywhere, valuesEverywhere_iff]

@[simp] theorem Value.everywhere_set {items : List Value} :
    (Value.set items).Everywhere p ↔ ∀ v ∈ items, v.Everywhere p := by
  rw [Value.Everywhere, valuesEverywhere_iff]

theorem Value.everywhere_of_mem_nodes {v : Value} {c : Node} (h : v.Everywhere p) (hc : c ∈ v.nodes) :
    c.Everywhere p := by
  have inItems : ∀ {items : List Value}, (∀ v ∈ items, v.Everywhere p) → c ∈ items.filterMap asNode? →
      c.Everywhere p := by
    intro items h hc
    obtain ⟨v, hv, hvc⟩ := List.mem_filterMap.mp hc
    have := h v hv
    cases v <;> cases hvc
    exact everywhere_node.mp this
  cases v with
  | node n =>
    obtain rfl := List.mem_singleton.mp hc
    exact everywhere_node.mp h
  | list items => exact inItems (everywhere_list.mp h) hc
  | set items => exact inItems (everywhere_set.mp h) hc
  | _ => exact absurd hc List.not_mem_nil

mutual

theorem Node.Everywhere.imp (h : ∀ n, p n → q n) : ∀ n : Node, n.Everywhere p → n.Everywhere q
  | .mk _ _ values, hn => by
    rw [Node.Everywhere] at hn ⊢
    exact ⟨h _ hn.1, ValuesEverywhere.imp h values hn.2⟩

theorem Value.Everywhere.imp (h : ∀ n, p n → q n) : ∀ v : Value, v.Everywhere p → v.Everywhere q
  | .node n, hv => by
    rw [Value.Everywhere] at hv ⊢
    exact Node.Everywhere.imp h n hv
  | .list items, hv => by
    rw [Value.Everywhere] at hv ⊢
    exact ValuesEverywhere.imp h items hv
  | .set items, hv => by
    rw [Value.Everywhere] at hv ⊢
    exact ValuesEverywhere.imp h items hv
  | .absent, _ | .int _, _ | .float _, _ | .bool _, _ | .str _, _ | .enum _, _ => trivial

theorem ValuesEverywhere.imp (h : ∀ n, p n → q n) : ∀ vs : List Value, ValuesEverywhere p vs → ValuesEverywhere q vs
  | [], _ => trivial
  | v :: vs, hvs => ⟨Value.Everywhere.imp h v hvs.1, ValuesEverywhere.imp h vs hvs.2⟩

end

theorem Node.Everywhere.child {n c : Node} (h : n.Everywhere p) (hc : c ∈ n.children) : c.Everywhere p := by
  obtain ⟨v, hv, hvc⟩ := List.mem_flatMap.mp hc
  exact Value.everywhere_of_mem_nodes ((Node.everywhere_iff.mp h).2 v hv) hvc

end Everywhere

/-! ### The nodes of a tree -/

/-- The nodes of the tree, each as often as it is held: what a node holds comes before the node. -/
def Node.occurrences (n : Node) : List Node := n.smallerChildren.flatMap (fun c => c.1.occurrences) ++ [n]
termination_by sizeOf n
decreasing_by exact c.2

theorem Node.occurrences_eq (n : Node) : n.occurrences = n.children.flatMap occurrences ++ [n] := by
  rw [occurrences, ← map_val_smallerChildren n, List.flatMap_map]

theorem Node.self_mem_occurrences (n : Node) : n ∈ n.occurrences := by
  rw [occurrences_eq]
  exact List.mem_append_right _ (List.mem_singleton.mpr rfl)

theorem Node.mem_occurrences_of_child {n c m : Node} (hc : c ∈ n.children) (hm : m ∈ c.occurrences) :
    m ∈ n.occurrences := by
  rw [occurrences_eq]
  exact List.mem_append_left _ (List.mem_flatMap.mpr ⟨c, hc, hm⟩)

section Decide
variable (p : Node → Prop) [DecidablePred p]

mutual

def Node.decidableEverywhere : (n : Node) → Decidable (n.Everywhere p)
  | .mk id v values =>
    have := decidableValuesEverywhere values
    decidable_of_iff (p (.mk id v values) ∧ ValuesEverywhere p values) (by rw [Node.Everywhere])

def Value.decidableEverywhere : (v : Value) → Decidable (v.Everywhere p)
  | .node n =>
    have := n.decidableEverywhere
    decidable_of_iff (n.Everywhere p) Value.everywhere_node.symm
  | .list items =>
    have := decidableValuesEverywhere items
    decidable_of_iff (ValuesEverywhere p items) (by rw [Value.Everywhere])
  | .set items =>
    have := decidableValuesEverywhere items
    decidable_of_iff (ValuesEverywhere p items) (by rw [Value.Everywhere])
  | .absent | .int _ | .float _ | .bool _ | .str _ | .enum _ => .isTrue trivial

def decidableValuesEverywhere : (vs : List Value) → Decidable (ValuesEverywhere p vs)
  | [] => .isTrue trivial
  | v :: vs =>
    have := v.decidableEverywhere
    have := decidableValuesEverywhere vs
    decidable_of_iff (v.Everywhere p ∧ ValuesEverywhere p vs) (by rw [ValuesEverywhere])

end

instance (n : Node) : Decidable (n.Everywhere p) := n.decidableEverywhere p

end Decide

/-! ### Nodes that fit their variant -/

/-- The node has one value for each field of its variant, admitted by the type of the field. -/
def Node.Fits (n : Node) : Prop :=
  List.Forall₂ (fun (f : Field) v => f.type.admits v = true) n.variant.fields n.values

/-- Every node of the tree has one of the variants and fits it. -/
def Node.BuiltFrom (vs : List Variant) (n : Node) : Prop := n.Everywhere fun m => m.variant ∈ vs ∧ m.Fits

instance (n : Node) : Decidable n.Fits := inferInstanceAs (Decidable (List.Forall₂ _ _ _))

instance (vs : List Variant) (n : Node) : Decidable (n.BuiltFrom vs) := inferInstanceAs (Decidable (n.Everywhere _))

def Value.BuiltFrom (vs : List Variant) (v : Value) : Prop := v.Everywhere fun m => m.variant ∈ vs ∧ m.Fits

namespace Value
variable {vs : List Variant}

@[simp] theorem builtFrom_node {n : Node} : (Value.node n).BuiltFrom vs ↔ n.BuiltFrom vs := everywhere_node

@[simp] theorem builtFrom_nodeList {ns : List Node} : (nodeList ns).BuiltFrom vs ↔ ∀ n ∈ ns, n.BuiltFrom vs := by
  simp [BuiltFrom, nodeList, Node.BuiltFrom]

@[simp] theorem builtFrom_ofMember {α : Type} [Enumerated α] (a : α) : (ofMember a).BuiltFrom vs := trivial

@[simp] theorem builtFrom_absent : absent.BuiltFrom vs := trivial

end Value

namespace Node
variable {vs : List Variant} {n c : Node}

theorem builtFrom_iff : n.BuiltFrom vs ↔ (n.variant ∈ vs ∧ n.Fits) ∧ ∀ v ∈ n.values, v.BuiltFrom vs := everywhere_iff

theorem BuiltFrom.variant_mem (h : n.BuiltFrom vs) : n.variant ∈ vs := h.here.1

theorem BuiltFrom.fits (h : n.BuiltFrom vs) : n.Fits := h.here.2

theorem BuiltFrom.fits_everywhere (h : n.BuiltFrom vs) : n.Everywhere Fits := Everywhere.imp (fun _ hm => hm.2) n h

theorem BuiltFrom.child (h : n.BuiltFrom vs) (hc : c ∈ n.children) : c.BuiltFrom vs := Everywhere.child h hc

/-- The first field of a name is read at its declared type. -/
theorem Fits.get (h : n.Fits) (name : String) {f : Field} (hf : n.variant.field? name = some f) :
    ∃ v, n.get name = .ok v ∧ f.type.admits v = true := by
  have find : ∀ {fs : List Field} {vs : List Value},
      List.Forall₂ (fun (f : Field) v => f.type.admits v = true) fs vs →
      (fs.find? fun g => g.name == name) = some f →
      ∃ v, ((fs.zip vs).find? fun e => e.1.name == name) = some (f, v) ∧ f.type.admits v = true := by
    intro fs vs hfit hf
    induction hfit with
    | nil => cases hf
    | @cons g v fs vs hgv _ ih =>
      rw [List.find?_cons] at hf
      rw [List.zip_cons_cons, List.find?_cons]
      cases hg : g.name == name with
      | true =>
        rw [hg] at hf
        cases hf
        exact ⟨v, rfl, hgv⟩
      | false =>
        rw [hg] at hf
        exact ih hf
  obtain ⟨v, hv, hadm⟩ := find h hf
  refine ⟨v, ?_, hadm⟩
  rw [Node.get, show n.fields.find? (fun e => e.1.name == name) = some (f, v) from hv]
  rfl

/-- The node has one value for each field. -/
def Complete (n : Node) : Prop := n.values.length = n.variant.fields.length

theorem Fits.complete (h : n.Fits) : n.Complete := (List.Forall₂.length_eq h).symm

theorem BuiltFrom.complete (h : n.BuiltFrom vs) : n.Everywhere Complete := Everywhere.imp (fun _ hm => hm.2.complete) n h

/-- When no two fields share a name, each value is what the name of its field reads. -/
theorem Complete.get_values (h : n.Complete) (hnd : (n.variant.fields.map Field.name).Nodup) :
    List.Forall₂ (fun (f : Field) v => n.get f.name = .ok v) n.variant.fields n.values := by
  have find : ∀ {fs : List Field} {values : List Value}, values.length = fs.length → (fs.map Field.name).Nodup →
      List.Forall₂ (fun (f : Field) v => ((fs.zip values).find? fun e => e.1.name == f.name) = some (f, v)) fs values := by
    intro fs values hlen hnd
    induction fs generalizing values with
    | nil =>
      obtain rfl := List.eq_nil_of_length_eq_zero hlen
      exact .nil
    | cons f fs ih =>
      obtain _ | ⟨v, values⟩ := values
      · cases hlen
      rw [List.map_cons, List.nodup_cons] at hnd
      -- The fields behind the first one have other names, so what they are found at does not change.
      have hne : ∀ g ∈ fs, (f.name == g.name) = false := fun g hg =>
        beq_eq_false_iff_ne.mpr fun e => hnd.1 (e ▸ List.mem_map_of_mem hg)
      refine .cons (by rw [List.zip_cons_cons, List.find?_cons, beq_self_eq_true]) ?_
      refine (List.forall₂_and_left _ _ |>.mpr ⟨hne, ih (Nat.succ.inj hlen) hnd.2⟩).imp fun g w hw => ?_
      rw [List.zip_cons_cons, List.find?_cons, hw.1]
      exact hw.2
  refine (find h hnd).imp fun f v hfv => ?_
  rw [Node.get, show n.fields.find? (fun e => e.1.name == f.name) = some (f, v) from hfv]
  rfl

theorem Fits.get_values (h : n.Fits) (hnd : (n.variant.fields.map Field.name).Nodup) :
    List.Forall₂ (fun (f : Field) v => n.get f.name = .ok v) n.variant.fields n.values := h.complete.get_values hnd

theorem Fits.values_eq (h : n.Fits) (hnd : (n.variant.fields.map Field.name).Nodup) {vs : List Value}
    (hget : n.variant.fields.map (fun f => n.get f.name) = vs.map Except.ok) : n.values = vs := by
  have heq : n.variant.fields.map (fun f => n.get f.name) = n.values.map Except.ok := by
    rw [← List.forall₂_eq_eq_eq, List.forall₂_map_left_iff, List.forall₂_map_right_iff]
    exact h.get_values hnd
  exact List.map_injective_iff.mpr (fun _ _ => Except.ok.inj) (heq.symm.trans hget)

end Node
end TypedTree
