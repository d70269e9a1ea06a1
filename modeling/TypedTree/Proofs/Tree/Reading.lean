import TypedTree.Proofs.Run
import TypedTree.Proofs.Tree.WellFormed

/-! Reading the fields of well-formed nodes. A value admitted by a type has the shape of the type, so the reader for
    that shape succeeds, and what it reads is a child of the node and well-formed again. -/

namespace TypedTree

/-! ### The shapes that types admit -/

namespace FieldType
variable {v : Value} {cls : String}

attribute [local simp] admits ScalarType.admits

theorem admits_node_iff : (FieldType.node cls).admits v = true ↔ ∃ c : Node, v = .node c ∧ c.isA cls = true := by
  cases v <;> simp

theorem admits_nodes_iff :
    (FieldType.list (.node cls)).admits v = true ↔ ∃ cs : List Node, v = .nodeList cs ∧ ∀ c ∈ cs, c.isA cls = true := by
  constructor
  · intro h
    cases v with
    | list items =>
      have hitems : ∀ {items : List Value}, items.all (FieldType.node cls).admits = true →
          ∃ cs : List Node, items = cs.map .node ∧ ∀ c ∈ cs, c.isA cls = true := by
        intro items h
        induction items with
        | nil => exact ⟨[], rfl, by simp⟩
        | cons v vs ih =>
          rw [List.all_cons, Bool.and_eq_true] at h
          obtain ⟨c, rfl, hc⟩ := admits_node_iff.mp h.1
          obtain ⟨cs, rfl, hcs⟩ := ih h.2
          exact ⟨c :: cs, rfl, List.forall_mem_cons.mpr ⟨hc, hcs⟩⟩
      obtain ⟨cs, rfl, hcs⟩ := hitems (by simpa using h)
      exact ⟨cs, rfl, hcs⟩
    | _ => simp at h
  · rintro ⟨cs, rfl, hcs⟩
    simpa [Value.nodeList] using hcs

theorem admits_optional_iff {inner : FieldType} :
    (FieldType.optional inner).admits v = true ↔ v = .absent ∨ inner.admits v = true := by
  cases v <;> simp [Value.isAbsent]

theorem admits_int_iff : FieldType.int.admits v = true ↔ ∃ i, v = .int i := by
  cases v <;> simp

theorem admits_float_iff : FieldType.float.admits v = true ↔ ∃ x, v = .float x := by
  cases v <;> simp

theorem admits_bool_iff : FieldType.bool.admits v = true ↔ ∃ b, v = .bool b := by
  cases v <;> simp

theorem admits_str_iff : FieldType.str.admits v = true ↔ ∃ s, v = .str s := by
  cases v <;> simp

theorem admits_list_iff {item : FieldType} :
    (FieldType.list item).admits v = true ↔ ∃ items, v = .list items ∧ ∀ x ∈ items, item.admits x = true := by
  cases v <;> simp

theorem admits_set_iff {item : FieldType} :
    (FieldType.set item).admits v = true ↔
      ∃ items, v = .set items ∧ (∀ x ∈ items, item.admits x = true) ∧ Value.Distinct items := by
  cases v <;> simp

theorem admits_member_iff {d : EnumDef} :
    (FieldType.scalar (.enum d)).admits v = true ↔ ∃ m, v = .enum m ∧ m.enum.name = d.name ∧ m.member ∈ d.members := by
  cases v <;> simp

/-- An enumeration admits the stored members that are read back as its members. -/
theorem admits_enum_iff {α : Type} [Enumerated α] :
    (FieldType.enum α).admits v = true ↔ ∃ a : α, v.asMember? α = some a := by
  cases v with
  | enum m =>
    simp only [admits, ScalarType.admits, Enumerated.enumDef, Bool.and_eq_true, beq_iff_eq, List.contains_iff_mem,
      Value.asMember?, EnumMember.get?]
    constructor
    · rintro ⟨hname, hmem⟩
      obtain ⟨a, -, ha⟩ := List.mem_map.mp hmem
      exact ⟨a, by rw [if_pos hname, Enumerated.ofName?_eq_some_iff]; exact ha⟩
    · rintro ⟨a, ha⟩
      by_cases hname : m.enum.name = Enumerated.label α
      · rw [if_pos hname, Enumerated.ofName?_eq_some_iff] at ha
        exact ⟨hname, List.mem_map.mpr ⟨a, Enumerated.mem_all a, ha⟩⟩
      · rw [if_neg hname] at ha
        cases ha
  | _ => simp [Value.asMember?]

@[simp] theorem admits_enum_ofMember {α : Type} [Enumerated α] (a : α) :
    (FieldType.enum α).admits (.ofMember a) = true :=
  admits_enum_iff.mpr ⟨a, by simp [Value.ofMember, Value.asMember?]⟩

end FieldType

/-! ### What readers read -/

namespace Node
variable {n c : Node} {name : String}

theorem getNode_of_get (h : n.get name = .ok (.node c)) : n.getNode name = .ok c := by
  rw [getNode, h]; rfl

theorem getNode?_of_get (h : n.get name = .ok (.node c)) : n.getNode? name = .ok (some c) := by
  rw [getNode?, h]; rfl

theorem getNode?_of_get_absent (h : n.get name = .ok .absent) : n.getNode? name = .ok none := by
  rw [getNode?, h]; rfl

theorem get_absent_of_getNode? (h : n.getNode? name = .ok none) : n.get name = .ok .absent := by
  obtain ⟨v, hg, h⟩ := bind_eq_ok.mp h
  cases v <;> cases h
  exact hg

theorem nodes_nodeList (cs : List Node) : (Value.nodeList cs).nodes = cs := by
  simp [Value.nodeList, Value.nodes, List.filterMap_map, Function.comp_def, Value.asNode?]

theorem getNodes_of_get {cs : List Node} (h : n.get name = .ok (.nodeList cs)) : n.getNodes name = .ok cs := by
  rw [getNodes, h]
  exact congrArg Except.ok (nodes_nodeList cs)

theorem getStr_of_get {s : String} (h : n.get name = .ok (.str s)) : n.getStr name = .ok s := by
  rw [getStr, h]; rfl

theorem get_of_getStr {s : String} (h : n.getStr name = .ok s) : n.get name = .ok (.str s) := by
  obtain ⟨v, hg, h⟩ := bind_eq_ok.mp h
  cases v <;> cases h
  exact hg

theorem getMember_of_get {α : Type} [Enumerated α] {v : Value} {a : α} (h : n.get name = .ok v)
    (ha : v.asMember? α = some a) : n.getMember α name = .ok a := by
  rw [getMember, h, ok_bind, ha]
  rfl

theorem get_of_getMember {α : Type} [Enumerated α] {a : α} (h : n.getMember α name = .ok a) :
    ∃ v, n.get name = .ok v ∧ v.asMember? α = some a := by
  obtain ⟨v, hg, h⟩ := bind_eq_ok.mp h
  cases ha : v.asMember? α with
  | none => rw [ha] at h; cases h
  | some b => rw [ha] at h; cases h; exact ⟨v, hg, ha⟩

theorem getMember?_of_get_absent {α : Type} [Enumerated α] (h : n.get name = .ok .absent) :
    n.getMember? α name = .ok none := by
  rw [getMember?, h]; rfl

theorem getMember?_of_get {α : Type} [Enumerated α] {v : Value} {a : α} (h : n.get name = .ok v)
    (ha : v.asMember? α = some a) : n.getMember? α name = .ok (some a) := by
  rw [getMember?, h, ok_bind]
  cases v with
  | enum m => simp only [ha]; rfl
  | _ => cases ha

theorem get_of_getMember? {α : Type} [Enumerated α] {a : Option α} (h : n.getMember? α name = .ok a) :
    ∃ v, n.get name = .ok v ∧ v.asMember? α = a ∧ (a = none → v = .absent) := by
  obtain ⟨v, hg, h⟩ := bind_eq_ok.mp h
  refine ⟨v, hg, ?_⟩
  cases v with
  | absent =>
    cases h
    exact ⟨rfl, fun _ => rfl⟩
  | enum m =>
    dsimp only at h
    cases ha : (Value.enum m).asMember? α with
    | none => rw [ha] at h; cases h
    | some b => rw [ha] at h; cases h; exact ⟨rfl, fun hn => by cases hn⟩
  | _ => cases h

/-! ### Descending -/

theorem descend_of_getNode (h : n.getNode name = .ok c) : ∃ hlt, n.descend name = .ok ⟨c, hlt⟩ := by
  have hmap := n.map_val_descend name
  rw [h] at hmap
  cases hd : n.descend name with
  | error e => rw [hd] at hmap; cases hmap
  | ok d =>
    rw [hd] at hmap
    cases hmap
    exact ⟨d.2, rfl⟩

theorem mem_children_of_descend {c : n.Smaller} (h : n.descend name = .ok c) : c.1 ∈ n.children :=
  mem_children_of_getNode (by rw [← map_val_descend, h]; rfl)

theorem mem_children_of_descend? {c : n.Smaller} (h : n.descend? name = .ok (some c)) : c.1 ∈ n.children :=
  mem_children_of_getNode? (by rw [← map_val_descend?, h]; rfl)

theorem mem_children_of_descendAll {cs : List n.Smaller} {c : n.Smaller} (h : n.descendAll name = .ok cs) (hc : c ∈ cs) :
    c.1 ∈ n.children :=
  mem_children_of_getNodes (by rw [← map_val_descendAll, h]; rfl) (List.mem_map_of_mem hc)

theorem descend?_of_getNode? (h : n.getNode? name = .ok (some c)) :
    ∃ hlt, n.descend? name = .ok (some ⟨c, hlt⟩) := by
  have hmap := n.map_val_descend? name
  rw [h] at hmap
  cases hd : n.descend? name with
  | error e => rw [hd] at hmap; cases hmap
  | ok d =>
    rw [hd] at hmap
    cases d <;> cases hmap
    exact ⟨_, rfl⟩

theorem descend?_of_getNode?_none (h : n.getNode? name = .ok none) : n.descend? name = .ok none := by
  have hmap := n.map_val_descend? name
  rw [h] at hmap
  cases hd : n.descend? name with
  | error e => rw [hd] at hmap; cases hmap
  | ok d => rw [hd] at hmap; cases d <;> cases hmap; rfl

/-! ### Fields of trees built from some variants -/

namespace BuiltFrom
variable {vs : List Variant} {cls : String}

theorem of_get (h : n.BuiltFrom vs) {v : Value} (hg : n.get name = .ok v) (hc : c ∈ v.nodes) : c.BuiltFrom vs :=
  h.child (mem_children_of_get hg hc)

theorem get_node (h : n.BuiltFrom vs) (name : String) {label : String} (hf : n.variant.field? name = some ⟨label, .node cls⟩) :
    ∃ c, n.get name = .ok (.node c) ∧ c.isA cls = true ∧ c.BuiltFrom vs := by
  obtain ⟨v, hg, hadm⟩ := h.fits.get name hf
  obtain ⟨c, rfl, hc⟩ := FieldType.admits_node_iff.mp hadm
  exact ⟨c, hg, hc, h.of_get hg (List.mem_singleton.mpr rfl)⟩

theorem get_optionalNode (h : n.BuiltFrom vs) (name : String) {label : String}
    (hf : n.variant.field? name = some ⟨label, .optional (.node cls)⟩) :
    n.get name = .ok .absent ∨ ∃ c, n.get name = .ok (.node c) ∧ c.isA cls = true ∧ c.BuiltFrom vs := by
  obtain ⟨v, hg, hadm⟩ := h.fits.get name hf
  rcases FieldType.admits_optional_iff.mp hadm with rfl | hadm
  · exact Or.inl hg
  · obtain ⟨c, rfl, hc⟩ := FieldType.admits_node_iff.mp hadm
    exact Or.inr ⟨c, hg, hc, h.of_get hg (List.mem_singleton.mpr rfl)⟩

theorem get_nodeList (h : n.BuiltFrom vs) (name : String) {label : String}
    (hf : n.variant.field? name = some ⟨label, .list (.node cls)⟩) :
    ∃ cs, n.get name = .ok (.nodeList cs) ∧ ∀ c ∈ cs, c.isA cls = true ∧ c.BuiltFrom vs := by
  obtain ⟨v, hg, hadm⟩ := h.fits.get name hf
  obtain ⟨cs, rfl, hcs⟩ := FieldType.admits_nodes_iff.mp hadm
  exact ⟨cs, hg, fun c hc => ⟨hcs c hc, h.of_get hg (by rwa [nodes_nodeList])⟩⟩

theorem of_getNode (h : n.BuiltFrom vs) (hn : n.getNode name = .ok c) {label : String}
    (hf : n.variant.field? name = some ⟨label, .node cls⟩) : c.isA cls = true ∧ c.BuiltFrom vs := by
  obtain ⟨d, hd, hcls, hb⟩ := h.get_node name hf
  rw [getNode_of_get hd] at hn
  cases hn
  exact ⟨hcls, hb⟩

theorem of_getNode? (h : n.BuiltFrom vs) (hn : n.getNode? name = .ok (some c)) {label : String}
    (hf : n.variant.field? name = some ⟨label, .optional (.node cls)⟩) : c.isA cls = true ∧ c.BuiltFrom vs := by
  rcases h.get_optionalNode name hf with hd | ⟨d, hd, hcls, hb⟩
  · rw [getNode?_of_get_absent hd] at hn
    cases hn
  · rw [getNode?_of_get hd] at hn
    cases hn
    exact ⟨hcls, hb⟩

end BuiltFrom

end Node
end TypedTree
