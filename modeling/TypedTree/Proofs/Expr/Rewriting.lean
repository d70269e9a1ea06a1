import TypedTree.Proofs.Expr.Inference
import TypedTree.Proofs.Expr.Program
import TypedTree.Proofs.Refines
import TypedTree.Proofs.Tree.Mapping
import TypedTree.Proofs.Tree.Update

/-! Steps that the rules for the kinds of node share: conversions, names, and the rebuilding of a node. Each does to
    trees what the typing of terms does to the terms that they spell. Nodes are rebuilt with values that their fields
    admit, so no rebuilding fails. -/

namespace TypedTree.Expr

/-- `n'` is a tree of the language that spells `t` and belongs to the classes of `n`. -/
structure Rewritten (n n' : Node) (t : Term) : Prop where
  builtFrom : n'.BuiltFrom variants
  spells : Spells n' t
  expr : n.isA "Expr" = true → n'.isA "Expr" = true
  stmt : n.isA "Stmt" = true → n'.isA "Stmt" = true

/-- `n` is an expression of the language that spells `t`. -/
structure Expression (n : Node) (t : Term) : Prop where
  builtFrom : n.BuiltFrom variants
  spells : Spells n t
  expr : n.isA "Expr" = true

theorem Rewritten.expression {n n' : Node} {t : Term} (h : Rewritten n n' t) (he : n.isA "Expr" = true) :
    Expression n' t := ⟨h.builtFrom, h.spells, h.expr he⟩

theorem Rewritten.of_variant {n n' : Node} {t : Term} (hb : n'.BuiltFrom variants) (hs : Spells n' t)
    (hv : n'.variant = n.variant) : Rewritten n n' t where
  builtFrom := hb
  spells := hs
  expr h := by rwa [Node.isA, hv]
  stmt h := by rwa [Node.isA, hv]

/-! ### Children -/

section Children
variable {n c : Node} {k : Kind} {name label cls : String}

theorem builtFrom_child (hn : n.BuiltFrom variants) (kind : n.variant = k.variant) (hc : n.getNode name = .ok c)
    (hf : k.variant.field? name = some ⟨label, .node cls⟩) : c.BuiltFrom variants :=
  (hn.of_getNode hc (by rw [kind]; exact hf)).2

theorem isA_child (hn : n.BuiltFrom variants) (kind : n.variant = k.variant) (hc : n.getNode name = .ok c)
    (hf : k.variant.field? name = some ⟨label, .node cls⟩) : c.isA cls = true :=
  (hn.of_getNode hc (by rw [kind]; exact hf)).1

theorem builtFrom_optionalChild (hn : n.BuiltFrom variants) (kind : n.variant = k.variant)
    (hc : n.getNode? name = .ok (some c)) (hf : k.variant.field? name = some ⟨label, .optional (.node cls)⟩) :
    c.BuiltFrom variants :=
  (hn.of_getNode? hc (by rw [kind]; exact hf)).2

theorem isA_optionalChild (hn : n.BuiltFrom variants) (kind : n.variant = k.variant)
    (hc : n.getNode? name = .ok (some c)) (hf : k.variant.field? name = some ⟨label, .optional (.node cls)⟩) :
    c.isA cls = true :=
  (hn.of_getNode? hc (by rw [kind]; exact hf)).1

end Children

/-! ### Types and conversions -/

theorem Expression.carriedType {n : Node} {t : Term} (h : Expression n t) : Typing.carriedType n = t.carried := by
  have hkind : n.kind = t.kind.name := congrArg Variant.name h.spells.variant
  rw [Typing.carriedType, h.spells.typeOf h.expr, Term.carried, hkind]
  cases t.type? <;> rfl

theorem castKind?_eq (target : Ty) : Typing.castKind? target = (Conversion.of? target).map Conversion.kind := by
  cases target <;> rfl

theorem arrange_cast (via : Conversion) {e : Node} (he : e.isA "Expr" = true) :
    via.kind.variant.arrange [("expr", .node e), ("type", .ofMember via.target)] =
      .ok [.node e, .ofMember via.target] := by
  have hs : via.kind.variant.slots [("expr", .node e), ("type", .ofMember via.target)] =
      .ok [some (.node e), some (.ofMember via.target)] := by cases via <;> rfl
  have hf : via.kind.variant.fields = [⟨"expr", .node "Expr"⟩, Kind.typeField] := by cases via <;> rfl
  have hex : (FieldType.node "Expr").admits (.node e) = true := he
  have hty : Kind.typeField.type.admits (.ofMember via.target) = true :=
    FieldType.admits_optional_iff.mpr (.inr (FieldType.admits_enum_ofMember _))
  rw [Variant.arrange, hs, hf]
  show [((⟨"expr", .node "Expr"⟩ : Field), some (Value.node e)), (Kind.typeField, some (.ofMember via.target))].mapM
    (fun p => via.kind.variant.settle p.1 p.2) = _
  simp only [List.mapM_cons, List.mapM_nil, Variant.settle, Field.checked, hty, hex, if_true]
  rfl

/-- A conversion of an expression is built, and is an expression. -/
theorem Expression.cast {e : Node} {t : Term} (h : Expression e t) (via : Conversion) (w : Workspace) :
    ∃ n w', built (via.kind.variant.build [("expr", .node e), ("type", .ofMember via.target)]) w = (.ok n, w') ∧
      Expression n (.cast via t (some via.target)) := by
  refine ⟨.mk w.nextId via.kind.variant [.node e, .ofMember via.target], { w with nextId := w.nextId + 1 }, ?_, ?_⟩
  · rw [Variant.build, arrange_cast via h.expr]
    rfl
  · have hfits : (Node.mk w.nextId via.kind.variant [.node e, .ofMember via.target]).Fits := by
      show List.Forall₂ _ via.kind.variant.fields _
      rw [show via.kind.variant.fields = [⟨"expr", .node "Expr"⟩, Kind.typeField] by cases via <;> rfl]
      exact .cons h.expr (.cons (FieldType.admits_optional_iff.mpr (.inr (FieldType.admits_enum_ofMember _))) .nil)
    refine ⟨Node.builtFrom_iff.mpr ⟨⟨?_, hfits⟩, ?_⟩, ?_, ?_⟩
    · exact List.mem_map_of_mem (Enumerated.mem_all via.kind)
    · exact List.forall_mem_cons.mpr ⟨Value.builtFrom_node.mpr h.builtFrom,
        List.forall_mem_cons.mpr ⟨Value.builtFrom_ofMember _, by simp⟩⟩
    · exact .cast rfl (by cases via <;> rfl) (typeOf_of_get (by cases via <;> rfl)) h.spells
    · cases via <;> rfl

theorem Expression.ensure {e : Node} {t : Term} (h : Expression e t) (target : Ty) :
    Builds Expression (Typing.ensure e target) (t.ensure target) := by
  rw [Typing.ensure, Term.ensure, h.carriedType]
  refine Builds.bind (Builds.same _) ?_
  rintro found _ rfl
  by_cases hf : found = target
  · rw [if_pos hf, if_pos hf]
    exact Builds.pure h
  · rw [if_neg hf, if_neg hf, castKind?_eq]
    cases hvia : Conversion.of? target with
    | none => exact Builds.throw
    | some via =>
      obtain rfl := Conversion.target_of_of? hvia
      exact Builds.last (h.cast via)

/-- A check that an expression is a whole number, with what is made of the expression. -/
theorem Expression.asInt {e : Node} {t : Term} (h : Expression e t) (error : Ty → TypingError) {α : Type} {a : α}
    {rel : α → Term → Prop} (ha : rel a t) :
    Refines (σ := SymbolTable) rel
      (do
        let found ← Typing.carriedType e
        if found = .int then pure a else throw (.typing (error found)))
      (liftM (t.asInt error)) := by
  simp only [h.carriedType, Term.asInt, liftM_bind]
  refine Refines.bind_same fun found _ => ?_
  by_cases hint : found = .int
  · rw [if_pos hint, if_pos hint]
    exact Refines.pure ha
  · rw [if_neg hint, if_neg hint]
    exact Refines.throw

theorem Term.ensure_of_carried {t : Term} {target : Ty} (h : t.carried = .ok target) : t.ensure target = .ok t := by
  rw [Term.ensure, h]
  exact if_pos rfl

/-! ### Names -/

theorem lookup_refines (name : String) : Refines Eq (Typing.lookup name) (lookup name) := by
  intro s w
  rw [Typing.lookup, lookup, outcome_bind, outcome_get, StateT.run_bind, StateT.run_get]
  simp only [pure_bind]
  cases s.get? name with
  | none => rfl
  | some t => exact ⟨rfl, rfl⟩

theorem declare_refines (name : String) (ty : Ty) : Refines Eq (Typing.declare name ty) (declare name ty) := by
  intro s w
  show Agrees _ (outcome (liftM (s.declare name ty) >>= set : Typing.CheckM Unit) s w).1
    (StateT.run (liftM (s.declare name ty) >>= set : InferM Unit) s)
  cases s.declare name ty with
  | error e => rfl
  | ok s' => exact ⟨rfl, rfl⟩

theorem declareArguments_refines (names : List String) {ms : List Value} {types : List Ty}
    (h : ms.map (Value.asMember? Ty) = types.map some) :
    Refines (fun _ _ => True) (Typing.declareArguments (names.map .str) ms) (declareAll (names.zip types)) := by
  induction names generalizing ms types with
  | nil => exact Refines.pure trivial
  | cons name names ih =>
    match ms, types, h with
    | [], [], _ => exact Refines.pure trivial
    | m :: ms, ty :: types, h =>
      rw [List.map_cons, List.map_cons, List.cons.injEq] at h
      simp only [List.map_cons, List.zip_cons_cons, Typing.declareArguments, declareAll, h.1]
      refine Refines.bind (declare_refines name ty) ?_
      rintro _ _ -
      exact ih h.2

/-! ### Rebuilding -/

section Rules
variable {n : Node} {R : Option Ty}

theorem update_refines (hn : n.BuiltFrom variants) {updates : List Argument} (hadm : n.Admits updates)
    (hvals : ∀ v ∈ updates.map Prod.snd, v.BuiltFrom variants) (hne : updates ≠ []) {t : Term}
    (hs : ∀ n', n.IsUpdate updates n' → Spells n' t) :
    Refines (σ := SymbolTable) (Rewritten n) (liftM (n.update updates)) (pure t) :=
  Refines.last fun w => by
    obtain ⟨n', hrun, hupd, hb⟩ := hn.built_update hadm hvals hne w
    exact ⟨n', _, hrun, Rewritten.of_variant hb (hs n' hupd) hupd.variant⟩

theorem admits_type {ty : Ty} : Kind.typeField.type.admits (.ofMember ty) = true :=
  FieldType.admits_optional_iff.mpr (.inr (FieldType.admits_enum_ofMember ty))

theorem Expression.admits {t : Term} (h : Expression n t) : (FieldType.node "Expr").admits (.node n) = true := h.expr

/-- What a field of one expression is rewritten to is an expression. -/
theorem expression_refines (hn : n.BuiltFrom variants) {name label : String} {c : Node}
    (hf : n.variant.field? name = some ⟨label, .node "Expr"⟩) (hc : n.getNode name = .ok c) {e : Term}
    (h : Refines (Rewritten c) (Typing.check R c) (e.check R)) :
    Refines Expression (Typing.check R c) (e.check R) :=
  h.mono fun _ _ hr => hr.expression (hn.of_getNode hc hf).1

/-! ### Operators with two operands -/

section Operands
variable (hn : n.BuiltFrom variants) (hleft : n.variant.field? "left" = some ⟨"left", .node "Expr"⟩)
  (hright : n.variant.field? "right" = some ⟨"right", .node "Expr"⟩)
  (htype : n.variant.field? "type" = some Kind.typeField)
include hn hleft hright

/-- The operands are typed from left to right, and their types are read. -/
theorem checkedOperands_refines {l r : Node} (readsLeft : n.getNode "left" = .ok l)
    (readsRight : n.getNode "right" = .ok r) {left right : Term}
    (ihl : Refines (Rewritten l) (Typing.check R l) (left.check R))
    (ihr : Refines (Rewritten r) (Typing.check R r) (right.check R))
    {f : Node → Node → Ty → Ty → Typing.CheckM Node} {g : Term → Term → Ty → Ty → InferM Term}
    (h : ∀ l r left right lt rt, Expression l left → Expression r right → left.carried = .ok lt →
      right.carried = .ok rt → Refines (Rewritten n) (f l r lt rt) (g left right lt rt)) :
    Refines (Rewritten n)
      (do
        let l ← Typing.check R l
        let r ← Typing.check R r
        let lt ← Typing.carriedType l
        let rt ← Typing.carriedType r
        f l r lt rt)
      (do
        let left ← left.check R
        let right ← right.check R
        let lt ← left.carried
        let rt ← right.carried
        g left right lt rt) := by
  refine Refines.bind (expression_refines hn hleft readsLeft ihl) fun l left hl => ?_
  refine Refines.bind (expression_refines hn hright readsRight ihr) fun r right hr => ?_
  rw [hl.carriedType, hr.carriedType]
  exact Refines.bind_same fun lt hlt => Refines.bind_same fun rt hrt => h l r left right lt rt hl hr hlt hrt

include htype

theorem operands_refines {l r : Node} {left right t : Term} (hl : Expression l left) (hr : Expression r right)
    {result : Ty} (hs : ∀ n', n.IsUpdate [("left", .node l), ("right", .node r), ("type", .ofMember result)] n' →
      Spells n' t) :
    Refines (σ := SymbolTable) (Rewritten n)
      (liftM (n.update [("left", .node l), ("right", .node r), ("type", .ofMember result)])) (pure t) := by
  refine update_refines hn ?_ (by simp [hl.builtFrom, hr.builtFrom]) (by simp) hs
  refine .cons (.cons (.cons .nil htype admits_type ?_) hright hr.admits ?_) hleft hl.admits ?_ <;> simp

theorem convertedOperands_refines {l r : Node} {left right : Term} (hl : Expression l left)
    (hr : Expression r right) (target : Ty) {result : Ty} {mk : Term → Term → Term}
    (hs : ∀ {l r left right n'}, Expression l left → Expression r right →
      n.IsUpdate [("left", .node l), ("right", .node r), ("type", .ofMember result)] n' →
      Spells n' (mk left right)) :
    Refines (σ := SymbolTable) (Rewritten n)
      (do
        let l ← Typing.ensure l target
        let r ← Typing.ensure r target
        n.update [("left", .node l), ("right", .node r), ("type", .ofMember result)])
      (do
        let left ← left.ensure target
        let right ← right.ensure target
        pure (mk left right)) := by
  refine Refines.bind (Refines.lift (hl.ensure target)) fun l left hl => ?_
  refine Refines.bind (Refines.lift (hr.ensure target)) fun r right hr => ?_
  exact operands_refines hn hleft hright htype hl hr fun n' => hs hl hr

end Operands

end Rules

end TypedTree.Expr
