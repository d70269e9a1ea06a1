import TypedTree.Proofs.Tree.Update
import TypedTree.Schema.Definition
import TypedTree.Tree.Rewrite

/-! Which nodes there are. A node comes from arguments, from updates of another node, from a transform of the nodes it
    holds, or out of a node that holds it. Only the values that are new are checked on the way, whatever the variant,
    the values and the transform are; still every node that can be obtained is well formed, at every depth. -/

namespace TypedTree

/-! ### The values of a type -/

/-- The values of a type, at every depth. Members are those that the type lists, and the items of a set are distinct. -/
inductive Value.HasType : Value → FieldType → Prop
  | int (i : Int) : HasType (.int i) .int
  | float (x : Binary64) : HasType (.float x) .float
  | bool (b : Bool) : HasType (.bool b) .bool
  | str (s : String) : HasType (.str s) .str
  | member {m : EnumMember} {d : EnumDef} (sameEnum : m.enum.name = d.name) (listed : m.member ∈ d.members) :
      HasType (.enum m) (.scalar (.enum d))
  | node {n : Node} {cls : String} (belongs : n.variant.name = cls ∨ cls ∈ n.variant.classes) :
      HasType (.node n) (.node cls)
  | list {items : List Value} {item : FieldType} (typed : ∀ v ∈ items, HasType v item) : HasType (.list items) (.list item)
  | set {items : List Value} {item : FieldType} (typed : ∀ v ∈ items, HasType v item) (distinct : Distinct items) :
      HasType (.set items) (.set item)
  | absent (inner : FieldType) : HasType .absent (.optional inner)
  | present {v : Value} {inner : FieldType} (typed : HasType v inner) : HasType v (.optional inner)

theorem FieldType.admits_iff_hasType {type : FieldType} {v : Value} : type.admits v = true ↔ v.HasType type := by
  constructor
  · intro h
    induction type generalizing v with
    | scalar s =>
      cases s with
      | int => obtain ⟨i, rfl⟩ := admits_int_iff.mp h; exact .int i
      | float => obtain ⟨x, rfl⟩ := admits_float_iff.mp h; exact .float x
      | bool => obtain ⟨b, rfl⟩ := admits_bool_iff.mp h; exact .bool b
      | str => obtain ⟨s, rfl⟩ := admits_str_iff.mp h; exact .str s
      | enum d => obtain ⟨m, rfl, hname, hmem⟩ := admits_member_iff.mp h; exact .member hname hmem
    | node cls =>
      obtain ⟨n, rfl, hn⟩ := admits_node_iff.mp h
      exact .node (by simpa [Node.isA, Variant.isA] using hn)
    | list item ih =>
      obtain ⟨items, rfl, hitems⟩ := admits_list_iff.mp h
      exact .list fun v hv => ih (hitems v hv)
    | set item ih =>
      obtain ⟨items, rfl, hitems, hdistinct⟩ := admits_set_iff.mp h
      exact .set (fun v hv => ih (hitems v hv)) hdistinct
    | optional inner ih =>
      rcases admits_optional_iff.mp h with rfl | h
      · exact .absent inner
      · exact .present (ih h)
  · intro h
    induction h with
    | int i => exact admits_int_iff.mpr ⟨i, rfl⟩
    | float x => exact admits_float_iff.mpr ⟨x, rfl⟩
    | bool b => exact admits_bool_iff.mpr ⟨b, rfl⟩
    | str s => exact admits_str_iff.mpr ⟨s, rfl⟩
    | member sameEnum listed => exact admits_member_iff.mpr ⟨_, rfl, sameEnum, listed⟩
    | node belongs => exact admits_node_iff.mpr ⟨_, rfl, by simpa [Node.isA, Variant.isA] using belongs⟩
    | list _ ih => exact admits_list_iff.mpr ⟨_, rfl, ih⟩
    | set _ distinct ih => exact admits_set_iff.mpr ⟨_, rfl, ih, distinct⟩
    | absent inner => exact admits_optional_iff.mpr (.inl rfl)
    | present _ ih => exact admits_optional_iff.mpr (.inr ih)

/-- The node has exactly one value for each field of its variant, and each is a value of the type of its field. -/
def Node.WellFormed (n : Node) : Prop :=
  List.Forall₂ (fun (f : Field) (v : Value) => v.HasType f.type) n.variant.fields n.values

theorem Node.Fits.wellFormed {n : Node} (h : n.Fits) : n.WellFormed :=
  List.Forall₂.imp (fun _ _ => FieldType.admits_iff_hasType.mp) h

/-! ### The nodes inside a value -/

/-- The value holds the node: it is the node, or has an item that holds it. -/
inductive Value.Holds (c : Node) : Value → Prop
  | node : Holds c (.node c)
  | list {v : Value} {items : List Value} (hv : v ∈ items) (h : Holds c v) : Holds c (.list items)
  | set {v : Value} {items : List Value} (hv : v ∈ items) (h : Holds c v) : Holds c (.set items)

section Holds
variable {p : Node → Prop}

theorem Value.Holds.everywhere {v : Value} {c : Node} (hc : v.Holds c) (h : v.Everywhere p) : c.Everywhere p := by
  induction hc with
  | node => exact everywhere_node.mp h
  | list hv _ ih => exact ih (everywhere_list.mp h _ hv)
  | set hv _ ih => exact ih (everywhere_set.mp h _ hv)

theorem Value.everywhere_of_holds (v : Value) (h : ∀ c, v.Holds c → c.Everywhere p) : v.Everywhere p :=
  match v with
  | .node n => everywhere_node.mpr (h n .node)
  | .list items => everywhere_list.mpr fun v hv =>
      have := List.sizeOf_lt_of_mem hv
      everywhere_of_holds v fun c hc => h c (.list hv hc)
  | .set items => everywhere_set.mpr fun v hv =>
      have := List.sizeOf_lt_of_mem hv
      everywhere_of_holds v fun c hc => h c (.set hv hc)
  | .absent | .int _ | .float _ | .bool _ | .str _ | .enum _ => trivial

theorem Value.holds_of_mem_nodes {v : Value} {c : Node} (hc : c ∈ v.nodes) : v.Holds c := by
  have item : ∀ {items : List Value}, c ∈ items.filterMap asNode? → Value.node c ∈ items := by
    intro items h
    obtain ⟨v, hv, hvc⟩ := List.mem_filterMap.mp h
    cases v <;> cases hvc
    exact hv
  cases v with
  | node n =>
    obtain rfl := List.mem_singleton.mp hc
    exact .node
  | list items => exact .list (item hc) .node
  | set items => exact .set (item hc) .node
  | _ => exact absurd hc List.not_mem_nil

@[simp] theorem Value.holds_node {n c : Node} : (Value.node n).Holds c ↔ c = n := by
  refine ⟨fun h => ?_, fun h => h ▸ .node⟩
  cases h
  rfl

@[simp] theorem Value.holds_list {items : List Value} {c : Node} :
    (Value.list items).Holds c ↔ ∃ v ∈ items, v.Holds c := by
  refine ⟨fun h => ?_, fun ⟨v, hv, hc⟩ => .list hv hc⟩
  cases h with
  | list hv hc => exact ⟨_, hv, hc⟩

@[simp] theorem Value.holds_set {items : List Value} {c : Node} :
    (Value.set items).Holds c ↔ ∃ v ∈ items, v.Holds c := by
  refine ⟨fun h => ?_, fun ⟨v, hv, hc⟩ => .set hv hc⟩
  cases h with
  | set hv hc => exact ⟨_, hv, hc⟩

theorem Value.not_holds {v : Value} (hnode : v.asNode? = none) (hitems : v.items? = none) (c : Node) : ¬v.Holds c := by
  intro h
  cases h with
  | node => cases hnode
  | list => cases hitems
  | set => cases hitems

end Holds

/-! ### Values that are settled -/

theorem forall₂_of_mapM {α β : Type} {f : α → Except Error β} {R : α → β → Prop} {xs : List α} {ys : List β}
    (hf : ∀ x y, f x = .ok y → R x y) (h : xs.mapM f = .ok ys) : List.Forall₂ R xs ys := by
  induction xs generalizing ys with
  | nil =>
    cases h
    exact .nil
  | cons x xs ih =>
    rw [List.mapM_cons] at h
    obtain ⟨y, hy, h⟩ := bind_eq_ok.mp h
    obtain ⟨rest, hrest, h⟩ := bind_eq_ok.mp h
    cases h
    exact .cons (hf x y hy) (ih hrest)

namespace Variant
variable {v : Variant} {args : List Argument}

theorem place_spec {slots slots' : List (Option Value)} {arg : Argument} (h : v.place slots arg = .ok slots') :
    slots'.length = slots.length ∧ ∀ x, some x ∈ slots' → some x ∈ slots ∨ x = arg.2 := by
  unfold place at h
  split at h
  · cases h
  · split at h
    · cases h
    · cases h
      refine ⟨List.length_set, fun x hx => ?_⟩
      rcases List.mem_or_eq_of_mem_set hx with hx | hx
      · exact .inl hx
      · exact .inr (Option.some.inj hx)

theorem slots_spec {slots : List (Option Value)} (h : v.slots args = .ok slots) :
    slots.length = v.fields.length ∧ ∀ x, some x ∈ slots → x ∈ args.map Prod.snd := by
  have placed : ∀ {args : List Argument} {slots slots' : List (Option Value)}, args.foldlM v.place slots = .ok slots' →
      slots'.length = slots.length ∧ ∀ x, some x ∈ slots' → some x ∈ slots ∨ x ∈ args.map Prod.snd := by
    intro args
    induction args with
    | nil =>
      intro slots slots' h
      cases h
      exact ⟨rfl, fun x hx => .inl hx⟩
    | cons arg args ih =>
      intro slots slots' h
      rw [List.foldlM_cons] at h
      obtain ⟨next, hnext, h⟩ := bind_eq_ok.mp h
      obtain ⟨hlen, hmem⟩ := place_spec hnext
      obtain ⟨hlen', hmem'⟩ := ih h
      refine ⟨hlen'.trans hlen, fun x hx => ?_⟩
      rcases hmem' x hx with hx | hx
      · rcases hmem x hx with hx | rfl
        · exact .inl hx
        · exact .inr List.mem_cons_self
      · exact .inr (List.mem_cons_of_mem _ hx)
  obtain ⟨hlen, hmem⟩ := placed h
  refine ⟨by simpa using hlen, fun x hx => ?_⟩
  rcases hmem x hx with hx | hx
  · cases List.eq_of_mem_replicate hx
  · exact hx

theorem settle_spec {f : Field} {slot : Option Value} {x : Value} (h : v.settle f slot = .ok x) :
    f.type.admits x = true ∧ (x = .absent ∨ slot = some x) := by
  cases slot with
  | some value =>
    obtain ⟨rfl, hx⟩ := Field.checked_eq_ok h
    exact ⟨hx, .inr rfl⟩
  | none =>
    rw [settle] at h
    by_cases hopt : f.isOptional = true
    · rw [if_pos hopt] at h
      cases h
      refine ⟨?_, .inl rfl⟩
      cases ht : f.type with
      | optional inner => exact FieldType.admits_optional_iff.mpr (.inl rfl)
      | _ => simp [Field.isOptional, FieldType.isOptional, ht] at hopt
    · rw [if_neg hopt] at h
      cases h

/-- There is one value for each field, admitted by its type, and it is the value of an argument or absent. -/
theorem arrange_spec {values : List Value} (h : v.arrange args = .ok values) :
    List.Forall₂ (fun (f : Field) x => f.type.admits x = true) v.fields values ∧
      ∀ x ∈ values, x = .absent ∨ x ∈ args.map Prod.snd := by
  obtain ⟨slots, hslots, h⟩ := bind_eq_ok.mp h
  obtain ⟨hlen, hmem⟩ := slots_spec hslots
  have settled : List.Forall₂ (fun (p : Field × Option Value) x => p.1.type.admits x = true ∧ (x = .absent ∨ p.2 = some x))
      (v.fields.zip slots) values := forall₂_of_mapM (fun _ _ => settle_spec) h
  constructor
  · rw [← List.map_fst_zip (Nat.le_of_eq hlen.symm), List.forall₂_map_left_iff]
    exact settled.imp fun _ _ hx => hx.1
  · intro x hx
    obtain ⟨p, hp, -, habsent | hslot⟩ := exists_of_forall₂ settled hx
    · exact .inl habsent
    · exact .inr (hmem x (hslot ▸ (List.of_mem_zip hp).2))

end Variant

/-- An update keeps the fit, and every value of the new node is one of the old node or of the update. -/
theorem Node.overlayFrom_spec (id : NodeId) {n : Node} {updates : List Argument} {values values' : List Value}
    {seen : List Nat} (h : n.overlayFrom updates values seen = .ok values') :
    ((Node.mk id n.variant values).Fits → (Node.mk id n.variant values').Fits) ∧
      ∀ x ∈ values', x ∈ values ∨ x ∈ updates.map Prod.snd := by
  induction updates generalizing values seen with
  | nil =>
    cases h
    exact ⟨fun hfit => hfit, fun x hx => .inl hx⟩
  | cons u rest ih =>
    obtain ⟨name, value⟩ := u
    rw [overlayFrom] at h
    split at h
    · cases h
    · next i hi =>
      split at h
      · cases h
      · obtain ⟨x, hx, hrest⟩ := bind_eq_ok.mp h
        obtain ⟨rfl, hadm⟩ := Field.checked_eq_ok hx
        obtain ⟨hfits, hmem⟩ := ih hrest
        refine ⟨fun hfit => hfits (hfit.set hi hadm).1, fun y hy => ?_⟩
        rcases hmem y hy with hy | hy
        · rcases List.mem_or_eq_of_mem_set hy with hy | rfl
          · exact .inl hy
          · exact .inr List.mem_cons_self
        · exact .inr (List.mem_cons_of_mem _ hy)

/-! ### Actions that keep an invariant -/

/-- From a state with the invariant the action, unless it fails, ends in a state with the invariant and with a value
    that has the property. -/
def Keeps {σ α : Type} (I : σ → Prop) (x : StateT σ BuildM α) (Q : α → Prop) : Prop :=
  ∀ s w a s' w', I s → outcome x s w = (.ok (a, s'), w') → I s' ∧ Q a

namespace Keeps
variable {σ α β : Type} {I : σ → Prop} {P : α → Prop} {Q : β → Prop}

theorem pure {a : α} (h : P a) : Keeps I (Pure.pure a) P := by
  intro s w a' s' w' hs hrun
  cases hrun
  exact ⟨hs, h⟩

theorem bind {x : StateT σ BuildM α} {f : α → StateT σ BuildM β} (hx : Keeps I x P) (hf : ∀ a, P a → Keeps I (f a) Q) :
    Keeps I (x >>= f) Q := by
  intro s w b s' w' hs hrun
  rw [outcome_bind] at hrun
  rcases hfirst : outcome x s w with ⟨_ | ⟨a, t⟩, v⟩
  · rw [hfirst] at hrun
    cases hrun
  · rw [hfirst] at hrun
    obtain ⟨ht, ha⟩ := hx s w a t v hs hfirst
    exact hf a ha t v b s' w' ht hrun

theorem lift {x : BuildM α} (h : ∀ a w w', built x w = (.ok a, w') → P a) : Keeps I (liftM x) P := by
  intro s w a s' w' hs hrun
  rw [outcome_lift] at hrun
  rcases hx : built x w with ⟨_ | b, v⟩
  · rw [hx] at hrun
    cases hrun
  · rw [hx] at hrun
    cases hrun
    exact ⟨hs, h _ w _ hx⟩

theorem map {x : StateT σ BuildM α} {f : α → β} (hx : Keeps I x P) (hf : ∀ a, P a → Q (f a)) : Keeps I (f <$> x) Q := by
  rw [map_eq_pure_bind]
  exact hx.bind fun a ha => .pure (hf a ha)

theorem imp {P' : α → Prop} {x : StateT σ BuildM α} (hx : Keeps I x P) (h : ∀ a, P a → P' a) : Keeps I x P' :=
  fun s w a s' w' hs hrun => (hx s w a s' w' hs hrun).imp_right (h a)

theorem result {x : StateT σ BuildM α} {s s' : σ} {w w' : Workspace} {a : α} (hx : Keeps I x P) (hs : I s)
    (hrun : outcome x s w = (.ok (a, s'), w')) : P a := (hx s w a s' w' hs hrun).2

theorem mapM {R : α → β → Prop} {f : α → StateT σ BuildM β} {xs : List α} (h : ∀ x ∈ xs, Keeps I (f x) (R x)) :
    Keeps I (xs.mapM f) (List.Forall₂ R xs) := by
  induction xs with
  | nil =>
    rw [List.mapM_nil]
    exact .pure .nil
  | cons x xs ih =>
    rw [List.forall_mem_cons] at h
    rw [List.mapM_cons]
    exact h.1.bind fun y hy => (ih h.2).bind fun ys hys => .pure (.cons hy hys)

end Keeps

/-! ### Transforms of what a node holds -/

section Transform
variable {σ : Type} {I : σ → Prop} {p : Node → Prop}

theorem Value.mapItems_keeps {items : List Value} {f : { c : Node // c ∈ items.filterMap asNode? } → StateT σ BuildM Node}
    (hitems : ∀ v ∈ items, v.Everywhere p) (hf : ∀ c, Keeps I (f c) (Node.Everywhere p)) :
    Keeps I (mapItems items f) fun ys => ∀ y ∈ ys, y.Everywhere p := by
  have mapped : Keeps I (mapItems items f) (List.Forall₂ (fun _ y => Value.Everywhere p y) items.attach) := by
    refine Keeps.mapM ?_
    rintro ⟨v, hv⟩ -
    cases v with
    | node c => exact (hf _).map fun n hn => everywhere_node.mpr hn
    | _ => exact .pure (hitems _ hv)
  intro s w ys s' w' hs hrun
  obtain ⟨hs', hys⟩ := mapped s w ys s' w' hs hrun
  refine ⟨hs', fun y hy => ?_⟩
  obtain ⟨_, _, h⟩ := exists_of_forall₂ hys hy
  exact h

theorem Value.mapNodes_keeps {v : Value} {f : { c : Node // c ∈ v.nodes } → StateT σ BuildM Node} (hv : v.Everywhere p)
    (hf : ∀ c, Keeps I (f c) (Node.Everywhere p)) : Keeps I (v.mapNodes f) (Value.Everywhere p) := by
  cases v with
  | node c => exact (hf _).map fun n hn => everywhere_node.mpr hn
  | list items =>
    exact (mapItems_keeps (everywhere_list.mp hv) hf).map fun ys hys => everywhere_list.mpr hys
  | set items =>
    exact (mapItems_keeps (everywhere_set.mp hv) hf).map fun ys hys => everywhere_set.mpr hys
  | _ => exact .pure hv

/-- A field that is not selected keeps its value, and one that is has its new value checked. -/
theorem Node.mapSmaller_keeps {n : Node} {sel : Selector} {f : n.Smaller → StateT σ BuildM Node}
    (hn : n.Everywhere Fits) (hf : ∀ c : n.Smaller, c.1 ∈ n.children → Keeps I (f c) (Everywhere Fits)) :
    Keeps I (n.mapSmaller sel f) (Everywhere Fits) := by
  have hvalues := (everywhere_iff.mp hn).2
  unfold mapSmaller
  refine (Keeps.mapM (R := fun q x => q.1.1.type.admits x = true ∧ x.Everywhere Fits) ?_).bind fun values hnew => ?_
  · rintro ⟨⟨field, v⟩, hq⟩ -
    have hmem := mem_values_of_mem_fields hq
    by_cases hsel : sel.selects field = true
    · rw [if_pos hsel]
      refine (Value.mapNodes_keeps (hvalues v hmem) fun c => hf _ ?_).bind fun x hx => .lift fun y w w' hrun => ?_
      · exact List.mem_flatMap.mpr ⟨v, hmem, c.2⟩
      · rw [built_liftM] at hrun
        obtain ⟨rfl, hadm⟩ := Field.checked_eq_ok (Prod.mk.inj hrun).1
        exact ⟨hadm, hx⟩
    · rw [if_neg hsel]
      exact .pure ⟨List.forall₂_zip hn.here hq, hvalues v hmem⟩
  · refine .lift fun n' w w' hrun => ?_
    cases hrun
    refine everywhere_iff.mpr ⟨?_, fun x hx => ?_⟩
    · have hfields : n.fields.attach.map (Prod.fst ∘ Subtype.val) = n.variant.fields := by
        rw [← List.map_map, List.attach_map_subtype_val]
        exact List.map_fst_zip (Nat.le_of_eq hn.here.complete.symm)
      show List.Forall₂ _ n.variant.fields values
      rw [← hfields, List.forall₂_map_left_iff]
      exact hnew.imp fun _ _ h => h.1
    · obtain ⟨_, _, _, h⟩ := exists_of_forall₂ hnew hx
      exact h

end Transform

/-! ### Nodes that can be obtained -/

/-- The nodes that can be obtained. Every node in the values given to a step is obtained before; a transform may do
    anything to the nodes it is called with and keep what it likes in its state, but the nodes it gives back are
    obtained too. Steps start in any workspace, and one that fails gives nothing. -/
inductive Node.Obtainable : Node → Prop
  | build {v : Variant} {args : List Argument} {w w' : Workspace} {n : Node}
      (given : ∀ a ∈ args, ∀ c, a.2.Holds c → Obtainable c) (run : built (v.build args) w = (.ok n, w')) : Obtainable n
  | buildNamed {schema : Schema} {name : String} {args : List Argument} {w w' : Workspace} {n : Node}
      (given : ∀ a ∈ args, ∀ c, a.2.Holds c → Obtainable c) (run : built (schema.build name args) w = (.ok n, w')) :
      Obtainable n
  | update {n n' : Node} {updates : List Argument} {w w' : Workspace} (old : Obtainable n)
      (given : ∀ u ∈ updates, ∀ c, u.2.Holds c → Obtainable c) (run : built (n.update updates) w = (.ok n', w')) :
      Obtainable n'
  | map {σ : Type} {I : σ → Prop} {n n' : Node} {sel : Selector} {f : Node → StateT σ BuildM Node} {s s' : σ}
      {w w' : Workspace} (old : Obtainable n) (start : I s)
      (keeps : ∀ c ∈ n.children, ∀ s w c' s' w', I s → outcome (f c) s w = (.ok (c', s'), w') → I s')
      (obtains : ∀ c ∈ n.children, ∀ s w c' s' w', I s → outcome (f c) s w = (.ok (c', s'), w') → Obtainable c')
      (run : outcome (n.map sel f) s w = (.ok (n', s'), w')) : Obtainable n'
  | mapSmaller {σ : Type} {I : σ → Prop} {n n' : Node} {sel : Selector} {f : n.Smaller → StateT σ BuildM Node}
      {s s' : σ} {w w' : Workspace} (old : Obtainable n) (start : I s)
      (keeps : ∀ c : n.Smaller, c.1 ∈ n.children → ∀ s w c' s' w', I s → outcome (f c) s w = (.ok (c', s'), w') → I s')
      (obtains : ∀ c : n.Smaller, c.1 ∈ n.children → ∀ s w c' s' w', I s → outcome (f c) s w = (.ok (c', s'), w') →
        Obtainable c')
      (run : outcome (n.mapSmaller sel f) s w = (.ok (n', s'), w')) : Obtainable n'
  | held {n c : Node} {v : Value} (old : Obtainable n) (hv : v ∈ n.values) (hc : v.Holds c) : Obtainable c

namespace Node

theorem everywhere_fits_of_build {v : Variant} {args : List Argument} {w w' : Workspace} {n : Node}
    (hargs : ∀ a ∈ args, ∀ c, a.2.Holds c → c.Everywhere Fits) (h : built (v.build args) w = (.ok n, w')) :
    n.Everywhere Fits := by
  obtain ⟨values, harrange, h⟩ := built_liftM_bind_eq_ok.mp h
  cases h
  obtain ⟨hfit, hmem⟩ := Variant.arrange_spec harrange
  refine everywhere_iff.mpr ⟨hfit, fun x hx => ?_⟩
  rcases hmem x hx with rfl | hx
  · trivial
  · obtain ⟨a, ha, rfl⟩ := List.mem_map.mp hx
    exact Value.everywhere_of_holds _ (hargs a ha)

theorem everywhere_fits_of_update {n n' : Node} {updates : List Argument} {w w' : Workspace} (hn : n.Everywhere Fits)
    (hupdates : ∀ u ∈ updates, ∀ c, u.2.Holds c → c.Everywhere Fits) (h : built (n.update updates) w = (.ok n', w')) :
    n'.Everywhere Fits := by
  unfold update at h
  by_cases hempty : updates.isEmpty = true
  · rw [if_pos hempty] at h
    cases h
    exact hn
  · rw [if_neg hempty] at h
    obtain ⟨values, hoverlay, h⟩ := built_liftM_bind_eq_ok.mp h
    cases h
    obtain ⟨hfits, hmem⟩ := overlayFrom_spec w.nextId hoverlay
    refine everywhere_iff.mpr ⟨hfits hn.here, fun x hx => ?_⟩
    rcases hmem x hx with hx | hx
    · exact (everywhere_iff.mp hn).2 x hx
    · obtain ⟨u, hu, rfl⟩ := List.mem_map.mp hx
      exact Value.everywhere_of_holds _ (hupdates u hu)

namespace Obtainable

theorem everywhere_fits {n : Node} (h : n.Obtainable) : n.Everywhere Fits := by
  induction h with
  | build _ run ih => exact everywhere_fits_of_build ih run
  | buildNamed _ run ih =>
    obtain ⟨v, -, run⟩ := built_liftM_bind_eq_ok.mp run
    exact everywhere_fits_of_build ih run
  | update _ _ run ihn ih => exact everywhere_fits_of_update ihn ih run
  | map _ start keeps _ run ihn ih =>
    refine (mapSmaller_keeps ihn fun c hc => ?_).result start run
    exact fun s w c' s' w' hs h => ⟨keeps c hc s w c' s' w' hs h, ih c hc s w c' s' w' hs h⟩
  | mapSmaller _ start keeps _ run ihn ih =>
    refine (mapSmaller_keeps ihn fun c hc => ?_).result start run
    exact fun s w c' s' w' hs h => ⟨keeps c hc s w c' s' w' hs h, ih c hc s w c' s' w' hs h⟩
  | held _ hv hc ihn => exact hc.everywhere ((everywhere_iff.mp ihn).2 _ hv)

/-- Every node that can be obtained is well formed, and so is every node inside it. -/
theorem everywhere_wellFormed {n : Node} (h : n.Obtainable) : n.Everywhere WellFormed :=
  Everywhere.imp (fun _ => Fits.wellFormed) n h.everywhere_fits

end Obtainable
end Node

section Marked

def leafVariant : Variant := ⟨"Leaf", [], [⟨"mark", .optional .str⟩]⟩

def groupVariant : Variant := ⟨"Group", [], [⟨"leaves", .set (.node "Leaf")⟩]⟩

def leafNode (id : NodeId) (mark : Value) : Node := .mk id leafVariant [mark]

def groupNode (id : NodeId) (leaves : List Node) : Node := .mk id groupVariant [.set (leaves.map .node)]

/-- Marks a leaf, and counts. -/
def markLeaf (n : Node) : StateT Nat BuildM Node := do
  modify (· + 1)
  n.update [("mark", .str "seen")]

/-- Two leaves are built and put in a group, and both are marked by a transform of the group. -/
theorem Node.everywhere_wellFormed_marked :
    outcome ((groupNode 2 [leafNode 0 .absent, leafNode 1 .absent]).map .children markLeaf) 0 { nextId := 3 } =
        (.ok (groupNode 5 [leafNode 3 (.str "seen"), leafNode 4 (.str "seen")], 2), { nextId := 6 }) ∧
      (groupNode 5 [leafNode 3 (.str "seen"), leafNode 4 (.str "seen")]).Everywhere WellFormed := by
  have run : outcome ((groupNode 2 [leafNode 0 .absent, leafNode 1 .absent]).map .children markLeaf) 0 { nextId := 3 } =
      (.ok (groupNode 5 [leafNode 3 (.str "seen"), leafNode 4 (.str "seen")], 2), { nextId := 6 }) := rfl
  have leaf : ∀ id : NodeId, (leafNode id .absent).Obtainable := fun id => by
    have built : built (leafVariant.build []) { nextId := id } = (.ok (leafNode id .absent), { nextId := id + 1 }) := rfl
    exact .build (by simp) built
  have group : (groupNode 2 [leafNode 0 .absent, leafNode 1 .absent]).Obtainable := by
    have built : built (groupVariant.build [("leaves", .set [.node (leafNode 0 .absent), .node (leafNode 1 .absent)])])
      { nextId := 2 } = (.ok (groupNode 2 [leafNode 0 .absent, leafNode 1 .absent]), { nextId := 3 }) := rfl
    refine .build (List.forall_mem_singleton.mpr fun c hc => ?_) built
    obtain _ | _ | ⟨hv, hc⟩ := hc
    obtain rfl | rfl : _ = Value.node _ ∨ _ = Value.node _ := by simpa using hv
    all_goals
      cases hc
      exact leaf _
  have marked : ∀ (id : NodeId) (s : Nat) (w : Workspace) (c : Node) (s' : Nat) (w' : Workspace),
      outcome (markLeaf (leafNode id .absent)) s w = (.ok (c, s'), w') → c.Obtainable := by
    intro id s w c s' w' h
    have updated : built ((leafNode id .absent).update [("mark", .str "seen")]) w =
      (.ok (leafNode w.nextId (.str "seen")), { w with nextId := w.nextId + 1 }) := rfl
    cases h
    exact .update (leaf id) (List.forall_mem_singleton.mpr fun c hc => by cases hc) updated
  refine ⟨run, Obtainable.everywhere_wellFormed ?_⟩
  refine .map (I := fun _ => True) group trivial (fun _ _ _ _ _ _ _ _ _ => trivial) (fun c hc s w c' s' w' _ h => ?_) run
  obtain rfl | rfl : c = leafNode 0 .absent ∨ c = leafNode 1 .absent := by
    simpa [groupNode, children, values, Value.nodes, Value.asNode?] using hc
  · exact marked 0 s w c' s' w' h
  · exact marked 1 s w c' s' w' h

end Marked

/-! ### Whole trees -/

section Rewriting
variable {σ : Type} {I : σ → Prop}

/-- What the rule puts in the place of a node can be obtained. -/
def RewriteRule.Obtains (I : σ → Prop) (n : Node) : RewriteRule (StateT σ BuildM) → Prop
  | .replace f => Keeps I (f n) Node.Obtainable
  | .rebuild _ finish => ∀ rebuilt : Node, rebuilt.Obtainable → Keeps I (finish rebuilt) Node.Obtainable

/-- Rewriting a tree that can be obtained, by rules that obtain what they put in place, gives one as well. -/
theorem Node.Obtainable.rewriteWith {rule : Node → RewriteRule (StateT σ BuildM)}
    (hrule : ∀ n : Node, n.Obtainable → (rule n).Obtains I n) (n : Node) (hn : n.Obtainable) :
    Keeps I (n.rewriteWith rule) Node.Obtainable := by
  rw [Node.rewriteWith]
  have hobtains := hrule n hn
  cases hr : rule n with
  | replace f =>
    rw [hr] at hobtains
    exact hobtains
  | rebuild sel finish =>
    rw [hr] at hobtains
    have rewritten : ∀ c : n.Smaller, c.1 ∈ n.children → Keeps I (c.1.rewriteWith rule) Obtainable := fun c hc => by
      obtain ⟨v, hv, hcv⟩ := List.mem_flatMap.mp hc
      exact rewriteWith hrule c.1 (hn.held hv (Value.holds_of_mem_nodes hcv))
    have rebuilt : Keeps I (n.mapSmaller sel fun c => c.1.rewriteWith rule) Obtainable := by
      intro s w n' s' w' hs hrun
      have kept : Keeps I (n.mapSmaller sel fun c => c.1.rewriteWith rule) (Everywhere Fits) :=
        mapSmaller_keeps hn.everywhere_fits fun c hc => (rewritten c hc).imp fun _ => everywhere_fits
      refine ⟨(kept s w n' s' w' hs hrun).1, ?_⟩
      exact hn.mapSmaller hs (fun c hc s w c' s' w' hs h => (rewritten c hc s w c' s' w' hs h).1)
        (fun c hc s w c' s' w' hs h => (rewritten c hc s w c' s' w' hs h).2) hrun
    exact rebuilt.bind hobtains
termination_by sizeOf n
decreasing_by exact c.2

end Rewriting

end TypedTree
