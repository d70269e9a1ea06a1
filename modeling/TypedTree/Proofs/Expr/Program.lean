import TypedTree.Proofs.Expr.Term

/-! Trees built from the variants of the language. Each has a kind, spells a term, and is an expression or a statement
    as its kind says; an expression reads the type that its term has written on it. -/

namespace TypedTree.Expr

/-! ### Kinds -/

theorem exists_kind {n : Node} (h : n.BuiltFrom variants) : ∃ k : Kind, n.variant = k.variant := by
  obtain ⟨k, -, hk⟩ := List.mem_map.mp h.variant_mem
  exact ⟨k, hk.symm⟩

theorem Kind.of?_of_variant {n : Node} {k : Kind} (h : n.variant = k.variant) : Kind.of? n = some k := by
  obtain ⟨id, v, values⟩ := n
  cases h
  exact Kind.of?_mk_variant id k values

theorem isA_of_variant {n : Node} {k : Kind} (h : n.variant = k.variant) (cls : String) :
    n.isA cls = k.variant.isA cls := congrArg (·.isA cls) h

theorem ref_of_isA {n : Node} (h : n.BuiltFrom variants) (hr : n.isA "Ref" = true) : n.variant = Kind.ref.variant := by
  obtain ⟨k, hk⟩ := exists_kind h
  rw [isA_of_variant hk] at hr
  have : k = .ref := by revert hr; cases k <;> decide
  rw [hk, this]

theorem Spells.variant {n : Node} {t : Term} (h : Spells n t) : n.variant = t.kind.variant := by
  cases h <;> assumption

/-! ### Types written at expressions -/

theorem typeOf_of_get {n : Node} {ty : Ty} (h : n.get "type" = .ok (.ofMember ty)) : typeOf n = .ok (some ty) :=
  Node.getMember?_of_get h (by simp [Value.ofMember, Value.asMember?])

theorem exists_typeOf {n : Node} (h : n.Fits) (hf : n.variant.field? "type" = some Kind.typeField) :
    ∃ ty, typeOf n = .ok ty := by
  obtain ⟨v, hg, hadm⟩ := h.get "type" hf
  rcases FieldType.admits_optional_iff.mp hadm with rfl | hadm
  · exact ⟨none, Node.getMember?_of_get_absent hg⟩
  · obtain ⟨ty, hty⟩ := FieldType.admits_enum_iff.mp hadm
    exact ⟨some ty, Node.getMember?_of_get hg hty⟩

theorem Spells.typeOf {n : Node} {t : Term} (h : Spells n t) (he : n.isA "Expr" = true) :
    Expr.typeOf n = .ok t.type? := by
  rw [isA_of_variant h.variant] at he
  cases h <;> first
    | assumption
    | exact absurd he Bool.false_ne_true

/-! ### Every tree of the language spells a term -/

theorem exists_strs {items : List Value} (h : items.all FieldType.str.admits = true) :
    ∃ names : List String, items = names.map .str := by
  induction items with
  | nil => exact ⟨[], rfl⟩
  | cons v vs ih =>
    rw [List.all_cons, Bool.and_eq_true] at h
    obtain ⟨s, rfl⟩ := FieldType.admits_str_iff.mp h.1
    obtain ⟨names, rfl⟩ := ih h.2
    exact ⟨s :: names, rfl⟩

theorem exists_types {items : List Value} (h : items.all (FieldType.enum Ty).admits = true) :
    ∃ types : List Ty, items.map (Value.asMember? Ty) = types.map some := by
  induction items with
  | nil => exact ⟨[], rfl⟩
  | cons v vs ih =>
    rw [List.all_cons, Bool.and_eq_true] at h
    obtain ⟨ty, hty⟩ := FieldType.admits_enum_iff.mp h.1
    obtain ⟨types, htypes⟩ := ih h.2
    exact ⟨ty :: types, by rw [List.map_cons, List.map_cons, hty, htypes]⟩

theorem exists_terms {ns : List Node} (h : ∀ n ∈ ns, ∃ t, Spells n t) :
    ∃ ts : List Term, ns.length = ts.length ∧ ∀ p ∈ ns.zip ts, Spells p.1 p.2 := by
  induction ns with
  | nil => exact ⟨[], rfl, by simp⟩
  | cons n ns ih =>
    obtain ⟨t, ht⟩ := h n List.mem_cons_self
    obtain ⟨ts, hlen, hts⟩ := ih fun m hm => h m (List.mem_cons_of_mem _ hm)
    exact ⟨t :: ts, congrArg (· + 1) hlen, List.forall_mem_cons.mpr ⟨ht, hts⟩⟩

theorem admits_items {item : FieldType} {v : Value} (h : (FieldType.list item).admits v = true) :
    ∃ items, v = .list items ∧ items.all item.admits = true := by
  cases v with
  | list items => exact ⟨items, rfl, by simpa [FieldType.admits] using h⟩
  | _ => simp [FieldType.admits] at h

section Fields
variable {n : Node} {label cls : String}

theorem exists_member {α : Type} [Enumerated α] (h : n.Fits) (name : String)
    (hf : n.variant.field? name = some ⟨label, .enum α⟩) : ∃ a : α, n.getMember α name = .ok a := by
  obtain ⟨v, hg, hadm⟩ := h.get name hf
  obtain ⟨a, ha⟩ := FieldType.admits_enum_iff.mp hadm
  exact ⟨a, Node.getMember_of_get hg ha⟩

theorem exists_str (h : n.Fits) (name : String) (hf : n.variant.field? name = some ⟨label, .str⟩) :
    ∃ s, n.getStr name = .ok s := by
  obtain ⟨v, hg, hadm⟩ := h.get name hf
  obtain ⟨s, rfl⟩ := FieldType.admits_str_iff.mp hadm
  exact ⟨s, Node.getStr_of_get hg⟩

/-- A node held by a field spells a term if all smaller trees do. -/
theorem exists_child (h : n.BuiltFrom variants)
    (ih : ∀ c : Node, sizeOf c < sizeOf n → c.BuiltFrom variants → ∃ t, Spells c t) (name : String)
    (hf : n.variant.field? name = some ⟨label, .node cls⟩) : ∃ c t, n.getNode name = .ok c ∧ Spells c t := by
  obtain ⟨c, hg, -, hb⟩ := h.get_node name hf
  have hn := Node.getNode_of_get hg
  obtain ⟨t, ht⟩ := ih c (Node.sizeOf_lt_of_mem_children (Node.mem_children_of_getNode hn)) hb
  exact ⟨c, t, hn, ht⟩

theorem exists_optionalChild (h : n.BuiltFrom variants)
    (ih : ∀ c : Node, sizeOf c < sizeOf n → c.BuiltFrom variants → ∃ t, Spells c t) (name : String)
    (hf : n.variant.field? name = some ⟨label, .optional (.node cls)⟩) :
    n.getNode? name = .ok none ∨ ∃ c t, n.getNode? name = .ok (some c) ∧ Spells c t := by
  rcases h.get_optionalNode name hf with hg | ⟨c, hg, -, hb⟩
  · exact Or.inl (Node.getNode?_of_get_absent hg)
  · have hn := Node.getNode?_of_get hg
    obtain ⟨t, ht⟩ := ih c (Node.sizeOf_lt_of_mem_children (Node.mem_children_of_getNode? hn)) hb
    exact Or.inr ⟨c, t, hn, ht⟩

theorem exists_const (h : n.Fits) (c : Constant) (hk : n.variant = c.kind.variant) (hc : c.HeldBy n) :
    ∃ t, Spells n t := by
  obtain ⟨ty, hty⟩ := exists_typeOf h (by rw [hk]; cases c <;> rfl)
  exact ⟨_, .const hk hc hty⟩

end Fields

/-- A reference is a name, or an element of a named array. -/
theorem exists_reference {n : Node} (h : n.BuiltFrom variants) (hk : n.variant = Kind.ref.variant)
    (ih : ∀ c : Node, sizeOf c < sizeOf n → c.BuiltFrom variants → ∃ t, Spells c t) :
    ∃ name ty, n.getStr "name" = .ok name ∧ Expr.typeOf n = .ok ty ∧
      (n.getNode? "index" = .ok none ∨ ∃ i index, n.getNode? "index" = .ok (some i) ∧ Spells i index) := by
  obtain ⟨name, hname⟩ := exists_str h.fits "name" (by rw [hk]; rfl)
  obtain ⟨ty, hty⟩ := exists_typeOf h.fits (by rw [hk]; rfl)
  exact ⟨name, ty, hname, hty, exists_optionalChild h ih "index" (by rw [hk]; rfl)⟩

theorem exists_spells (n : Node) (h : n.BuiltFrom variants) : ∃ t, Spells n t := by
  have ih : ∀ c : Node, sizeOf c < sizeOf n → c.BuiltFrom variants → ∃ t, Spells c t :=
    fun c _ hc => exists_spells c hc
  obtain ⟨k, hk⟩ := exists_kind h
  have field : ∀ {name f}, k.variant.field? name = some f → n.variant.field? name = some f := fun hf => by
    rw [hk]; exact hf
  have cast : ∀ via : Conversion, k = via.kind → ∃ t, Spells n t := by
    rintro via rfl
    obtain ⟨ty, hty⟩ := exists_typeOf h.fits (field (by cases via <;> rfl))
    obtain ⟨c, e, hc, he⟩ := exists_child h ih "expr" (field (by cases via <;> rfl))
    exact ⟨_, .cast hk hc hty he⟩
  cases k with
  | binOp =>
    obtain ⟨op, hop⟩ := exists_member (α := BinaryOp) h.fits "op" (field rfl)
    obtain ⟨ty, hty⟩ := exists_typeOf h.fits (field rfl)
    obtain ⟨l, left, hl, hleft⟩ := exists_child h ih "left" (field rfl)
    obtain ⟨r, right, hr, hright⟩ := exists_child h ih "right" (field rfl)
    exact ⟨_, .binOp hk hop hl hr hty hleft hright⟩
  | cmpOp =>
    obtain ⟨op, hop⟩ := exists_member (α := Comparison) h.fits "op" (field rfl)
    obtain ⟨ty, hty⟩ := exists_typeOf h.fits (field rfl)
    obtain ⟨l, left, hl, hleft⟩ := exists_child h ih "left" (field rfl)
    obtain ⟨r, right, hr, hright⟩ := exists_child h ih "right" (field rfl)
    exact ⟨_, .cmpOp hk hop hl hr hty hleft hright⟩
  | unOp =>
    obtain ⟨op, hop⟩ := exists_member (α := UnaryOp) h.fits "op" (field rfl)
    obtain ⟨ty, hty⟩ := exists_typeOf h.fits (field rfl)
    obtain ⟨c, e, hc, he⟩ := exists_child h ih "e" (field rfl)
    exact ⟨_, .unOp hk hop hc hty he⟩
  | ref =>
    obtain ⟨name, ty, hname, hty, hi | ⟨i, index, hi, hindex⟩⟩ := exists_reference h hk ih
    · exact ⟨_, .var hk hname hi hty⟩
    · exact ⟨_, .element hk hname hi hty hindex⟩
  | intConst =>
    obtain ⟨v, hg, hadm⟩ := h.fits.get "val" (field rfl)
    obtain ⟨i, rfl⟩ := FieldType.admits_int_iff.mp hadm
    exact exists_const h.fits (.int i) hk hg
  | floatConst =>
    obtain ⟨v, hg, hadm⟩ := h.fits.get "val" (field rfl)
    obtain ⟨x, rfl⟩ := FieldType.admits_float_iff.mp hadm
    exact exists_const h.fits (.float x) hk hg
  | boolConst =>
    obtain ⟨v, hg, hadm⟩ := h.fits.get "val" (field rfl)
    obtain ⟨b, rfl⟩ := FieldType.admits_bool_iff.mp hadm
    exact exists_const h.fits (.bool b) hk hg
  | voidConst => exact exists_const h.fits .void hk trivial
  | castToFloat => exact cast .toFloat rfl
  | castToInt => exact cast .toInt rfl
  | castToBool => exact cast .toBool rfl
  -- The target is no term of its own: its name and its index belong to the assignment.
  | assign =>
    obtain ⟨v, val, hv, hval⟩ := exists_child h ih "val" (field rfl)
    obtain ⟨r, hg, hr, hrb⟩ := h.get_node "ref" (field rfl)
    have hlt := Node.sizeOf_lt_of_mem_children (Node.mem_children_of_get hg (List.mem_singleton.mpr rfl))
    obtain ⟨name, ty, hname, hty, hi | ⟨i, index, hi, hindex⟩⟩ :=
      exists_reference hrb (ref_of_isA hrb hr) fun c hc => ih c (Nat.lt_trans hc hlt)
    · exact ⟨_, .assign hk (Node.getNode_of_get hg) hv (ref_of_isA hrb hr) hname hi hty hval⟩
    · exact ⟨_, .store hk (Node.getNode_of_get hg) hv (ref_of_isA hrb hr) hname hi hty hindex hval⟩
  | block =>
    obtain ⟨ns, hg, hns⟩ := h.get_nodeList "body" (field rfl)
    obtain ⟨ts, hlen, hts⟩ := exists_terms fun c hc => ih c (Node.sizeOf_lt_of_mem_children
      (Node.mem_children_of_get hg (by rwa [Node.nodes_nodeList]))) (hns c hc).2
    exact ⟨_, .block hk hg hlen hts⟩
  | branch =>
    obtain ⟨c, cond, hc, hcond⟩ := exists_child h ih "cond" (field rfl)
    obtain ⟨b, body, hb, hbody⟩ := exists_child h ih "body" (field rfl)
    rcases exists_optionalChild h ih "else_body" (field rfl) with he | ⟨e, elseBody, he, helse⟩
    · exact ⟨_, .branch hk hc hb he hcond hbody⟩
    · exact ⟨_, .branchElse hk hc hb he hcond hbody helse⟩
  | loop =>
    obtain ⟨var, hvar⟩ := exists_str h.fits "var" (field rfl)
    obtain ⟨l, min, hl, hmin⟩ := exists_child h ih "min" (field rfl)
    obtain ⟨u, max, hu, hmax⟩ := exists_child h ih "max" (field rfl)
    obtain ⟨b, body, hb, hbody⟩ := exists_child h ih "body" (field rfl)
    exact ⟨_, .loop hk hvar hl hu hb hmin hmax hbody⟩
  | ret =>
    obtain ⟨v, val, hv, hval⟩ := exists_child h ih "val" (field rfl)
    obtain ⟨ty, hty⟩ := exists_typeOf h.fits (field rfl)
    exact ⟨_, .ret hk hv hty hval⟩
  | funcDef =>
    obtain ⟨name, hname⟩ := exists_str h.fits "name" (field rfl)
    obtain ⟨rt, hrt⟩ := exists_member (α := Ty) h.fits "return_type" (field rfl)
    obtain ⟨b, body, hb, hbody⟩ := exists_child h ih "body" (field rfl)
    obtain ⟨args, hargs, hadm⟩ := h.fits.get "args" (field rfl)
    obtain ⟨items, rfl, hitems⟩ := admits_items hadm
    obtain ⟨names, rfl⟩ := exists_strs hitems
    obtain ⟨tys, htys, hadm⟩ := h.fits.get "arg_types" (field rfl)
    obtain ⟨ms, rfl, hms⟩ := admits_items hadm
    obtain ⟨types, htypes⟩ := exists_types hms
    exact ⟨_, .funcDef hk hname hargs htys htypes hrt hb hbody⟩
termination_by sizeOf n

end TypedTree.Expr
