import TypedTree.Proofs.Expr.Rewriting

/-! The checker of trees does what the typing of terms says. From a tree that spells a term it fails with the error
    that typing the term gives, or ends with a tree that spells the typed term, and with the same symbol table. -/

namespace TypedTree.Expr

section Rules
variable {n : Node} {R : Option Ty}

theorem binOp_refines (hn : n.BuiltFrom variants) (kind : n.variant = Kind.binOp.variant) {op : BinaryOp}
    (readsOp : n.getMember BinaryOp "op" = .ok op) {l r : Node} (readsLeft : n.getNode "left" = .ok l)
    (readsRight : n.getNode "right" = .ok r) {left right : Term}
    (ihl : Refines (Rewritten l) (Typing.check R l) (left.check R))
    (ihr : Refines (Rewritten r) (Typing.check R r) (right.check R)) (ty : Option Ty) :
    Refines (Rewritten n) (Typing.check R n) (Term.check R (.binOp op left right ty)) := by
  have hfl : n.variant.field? "left" = some ⟨"left", .node "Expr"⟩ := by rw [kind]; rfl
  have hfr : n.variant.field? "right" = some ⟨"right", .node "Expr"⟩ := by rw [kind]; rfl
  have hft : n.variant.field? "type" = some Kind.typeField := by rw [kind]; rfl
  have spells : ∀ {target l r left right n'}, Expression l left → Expression r right →
      n.IsUpdate [("left", .node l), ("right", .node r), ("type", .ofMember target)] n' →
      Spells n' (.binOp op left right (some target)) := fun hl hr hu =>
    .binOp (hu.variant.trans kind) (hu.getMember rfl readsOp) (Node.getNode_of_get (hu.get "left"))
      (Node.getNode_of_get (hu.get "right")) (typeOf_of_get (hu.get "type")) hl.spells hr.spells
  obtain ⟨_, hdl⟩ := Node.descend_of_getNode readsLeft
  obtain ⟨_, hdr⟩ := Node.descend_of_getNode readsRight
  rw [Typing.check, Kind.of?_of_variant kind]
  simp only [Typing.binOp, Typing.operands, readsOp, hdl, hdr, liftM_state_ok, pure_bind, bind_assoc, Term.check]
  refine checkedOperands_refines hn hfl hfr readsLeft readsRight ihl ihr fun l r left right lt rt hl hr hlt hrt => ?_
  by_cases hlr : lt = rt
  · subst hlr
    rw [if_pos rfl, BinaryOp.operandType, if_pos rfl]
    -- Operands of one type stay as they are, unless they are truth values to compute with.
    generalize (if lt = .bool ∧ op.isArithmetic then Ty.int else lt) = target
    by_cases ht : target = lt
    · subst ht
      simp only [pure_bind, and_self, if_true, liftM_pure, Term.ensure_of_carried hlt, Term.ensure_of_carried hrt]
      exact operands_refines hn hfl hfr hft hl hr fun _ => spells hl hr
    · simp only [pure_bind, ht, and_false, if_false, liftM_pure]
      exact convertedOperands_refines hn hfl hfr hft hl hr target spells
  · rw [if_neg hlr, BinaryOp.operandType, if_neg hlr]
    simp only [hlr, false_and, if_false]
    exact Refines.bind_same fun target _ => convertedOperands_refines hn hfl hfr hft hl hr target spells

theorem cmpOp_refines (hn : n.BuiltFrom variants) (kind : n.variant = Kind.cmpOp.variant) {op : Comparison}
    (readsOp : n.getMember Comparison "op" = .ok op) {l r : Node} (readsLeft : n.getNode "left" = .ok l)
    (readsRight : n.getNode "right" = .ok r) {left right : Term}
    (ihl : Refines (Rewritten l) (Typing.check R l) (left.check R))
    (ihr : Refines (Rewritten r) (Typing.check R r) (right.check R)) (ty : Option Ty) :
    Refines (Rewritten n) (Typing.check R n) (Term.check R (.cmpOp op left right ty)) := by
  have hfl : n.variant.field? "left" = some ⟨"left", .node "Expr"⟩ := by rw [kind]; rfl
  have hfr : n.variant.field? "right" = some ⟨"right", .node "Expr"⟩ := by rw [kind]; rfl
  have hft : n.variant.field? "type" = some Kind.typeField := by rw [kind]; rfl
  have spells : ∀ {l r left right n'}, Expression l left → Expression r right →
      n.IsUpdate [("left", .node l), ("right", .node r), ("type", .ofMember Ty.bool)] n' →
      Spells n' (.cmpOp op left right (some .bool)) := fun hl hr hu =>
    .cmpOp (hu.variant.trans kind) (hu.getMember rfl readsOp) (Node.getNode_of_get (hu.get "left"))
      (Node.getNode_of_get (hu.get "right")) (typeOf_of_get (hu.get "type")) hl.spells hr.spells
  obtain ⟨_, hdl⟩ := Node.descend_of_getNode readsLeft
  obtain ⟨_, hdr⟩ := Node.descend_of_getNode readsRight
  rw [Typing.check, Kind.of?_of_variant kind]
  simp only [Typing.cmpOp, Typing.operands, readsOp, hdl, hdr, liftM_state_ok, pure_bind, bind_assoc, Term.check]
  refine checkedOperands_refines hn hfl hfr readsLeft readsRight ihl ihr fun l r left right lt rt hl hr hlt hrt => ?_
  by_cases hlr : lt = rt
  · subst hlr
    rw [if_pos rfl, Comparison.operandType, if_pos rfl]
    simp only [pure_bind, liftM_pure, Term.ensure_of_carried hlt, Term.ensure_of_carried hrt]
    exact operands_refines hn hfl hfr hft hl hr fun _ => spells hl hr
  · rw [if_neg hlr, Comparison.operandType, if_neg hlr]
    exact Refines.bind_same fun target _ => convertedOperands_refines hn hfl hfr hft hl hr target spells

/-! ### Operators with one operand -/

theorem unaryOperand_builds {e : Node} {t : Term} (h : Expression e t) (op : UnaryOp) :
    Builds Expression (Typing.unaryOperand op e) (t.asOperand op) := by
  cases op with
  | neg =>
    simp only [Typing.unaryOperand, Term.asOperand, h.carriedType, UnaryOp.operandType]
    refine Builds.bind_same fun found hfound => ?_
    by_cases hb : found = .bool
    · simpa only [hb, if_true] using h.ensure .int
    · simp only [hb, if_false, Term.ensure_of_carried hfound]
      exact Builds.pure h
  | not =>
    have hread : (do let _ ← t.carried; t.ensure .bool) = t.ensure .bool := by
      cases hc : t.carried with
      | error e => rw [Term.ensure, hc]; rfl
      | ok found => rfl
    simp only [Typing.unaryOperand, Term.asOperand, UnaryOp.operandType, hread]
    exact h.ensure .bool

theorem unOp_refines (hn : n.BuiltFrom variants) (kind : n.variant = Kind.unOp.variant) {op : UnaryOp}
    (readsOp : n.getMember UnaryOp "op" = .ok op) {c : Node} (readsOperand : n.getNode "e" = .ok c) {e : Term}
    (ih : Refines (Rewritten c) (Typing.check R c) (e.check R)) (ty : Option Ty) :
    Refines (Rewritten n) (Typing.check R n) (Term.check R (.unOp op e ty)) := by
  have hfe : n.variant.field? "e" = some ⟨"e", .node "Expr"⟩ := by rw [kind]; rfl
  have hft : n.variant.field? "type" = some Kind.typeField := by rw [kind]; rfl
  obtain ⟨_, hd⟩ := Node.descend_of_getNode readsOperand
  rw [Typing.check, Kind.of?_of_variant kind]
  simp only [Typing.unOp, readsOp, hd, liftM_state_ok, pure_bind, Term.check]
  refine Refines.bind (expression_refines hn hfe readsOperand ih) fun c e hc => ?_
  refine Refines.bind (Refines.lift (unaryOperand_builds hc op)) fun c e hc => ?_
  rw [hc.carriedType]
  refine Refines.bind_same fun result _ => ?_
  refine update_refines hn ?_ (by simp [hc.builtFrom]) (by simp) fun n' hu => ?_
  · exact .cons (.cons .nil hft admits_type (by simp)) hfe hc.admits (by simp)
  · exact .unOp (hu.variant.trans kind) (hu.getMember rfl readsOp) (Node.getNode_of_get (hu.get "e"))
      (typeOf_of_get (hu.get "type")) hc.spells

/-! ### References -/

theorem checkedIndex_refines (hn : n.BuiltFrom variants) (kind : n.variant = Kind.ref.variant) {i : Node}
    (readsIndex : n.getNode? "index" = .ok (some i)) {index : Term}
    (ih : Refines (Rewritten i) (Typing.check R i) (index.check R)) :
    Refines (fun found index => ∃ i, found = some i ∧ Expression i index)
      (Typing.checkedIndex n fun c => Typing.check R c.1)
      (do
        let index ← index.check R
        index.asInt .nonIntIndex) := by
  have hf : n.variant.field? "index" = some ⟨"index", .optional (.node "Expr")⟩ := by rw [kind]; rfl
  obtain ⟨_, hd⟩ := Node.descend?_of_getNode? readsIndex
  simp only [Typing.checkedIndex, hd, liftM_state_ok, pure_bind]
  refine Refines.bind (ih.mono fun _ _ hr => hr.expression (hn.of_getNode? readsIndex hf).1) fun i index hi => ?_
  exact hi.asInt .nonIntIndex ⟨i, rfl, hi⟩

theorem checkedIndex_none (readsIndex : n.getNode? "index" = .ok none) (recurse : n.Smaller → Typing.CheckM Node) :
    Typing.checkedIndex n recurse = pure none := by
  rw [Typing.checkedIndex, Node.descend?_of_getNode?_none readsIndex]
  rfl

theorem var_refines (hn : n.BuiltFrom variants) (kind : n.variant = Kind.ref.variant) {name : String}
    (readsName : n.getStr "name" = .ok name) (readsIndex : n.getNode? "index" = .ok none) (ty : Option Ty) :
    Refines (Rewritten n) (Typing.check R n) (Term.check R (.var name ty)) := by
  have hfi : n.variant.field? "index" = some ⟨"index", .optional (.node "Expr")⟩ := by rw [kind]; rfl
  have hft : n.variant.field? "type" = some Kind.typeField := by rw [kind]; rfl
  rw [Typing.check, Kind.of?_of_variant kind]
  simp only [Typing.ref, readsName, checkedIndex_none readsIndex, Typing.referenceType, Option.isSome_none,
    Bool.false_eq_true, if_false, liftM_state_ok, liftM_pure, pure_bind, Term.check]
  refine Refines.bind (lookup_refines name) ?_
  rintro declared _ rfl
  refine update_refines hn ?_ (by simp [Value.ofOption]) (by simp) fun n' hu => ?_
  · exact .cons (.cons .nil hfi rfl (by simp)) hft admits_type (by simp)
  · exact .var (hu.variant.trans kind) (hu.getStr rfl readsName) (Node.getNode?_of_get_absent (hu.get "index"))
      (typeOf_of_get (hu.get "type"))

theorem element_refines (hn : n.BuiltFrom variants) (kind : n.variant = Kind.ref.variant) {name : String}
    (readsName : n.getStr "name" = .ok name) {i : Node} (readsIndex : n.getNode? "index" = .ok (some i)) {index : Term}
    (ih : Refines (Rewritten i) (Typing.check R i) (index.check R)) (ty : Option Ty) :
    Refines (Rewritten n) (Typing.check R n) (Term.check R (.element name index ty)) := by
  have hfi : n.variant.field? "index" = some ⟨"index", .optional (.node "Expr")⟩ := by rw [kind]; rfl
  have hft : n.variant.field? "type" = some Kind.typeField := by rw [kind]; rfl
  rw [Typing.check, Kind.of?_of_variant kind]
  simp only [Typing.ref, readsName, liftM_state_ok, pure_bind, Term.check]
  refine Refines.bind (lookup_refines name) ?_
  rintro declared _ rfl
  rw [← bind_assoc (x := index.check R)]
  refine Refines.bind (checkedIndex_refines hn kind readsIndex ih) ?_
  rintro _ index ⟨i, rfl, hi⟩
  refine Refines.bind_same fun result _ => ?_
  refine update_refines hn ?_ (by simp [Value.ofOption, hi.builtFrom]) (by simp) fun n' hu => ?_
  · exact .cons (.cons .nil hfi (FieldType.admits_optional_iff.mpr (.inr hi.admits)) (by simp)) hft admits_type (by simp)
  · exact .element (hu.variant.trans kind) (hu.getStr rfl readsName) (Node.getNode?_of_get (hu.get "index"))
      (typeOf_of_get (hu.get "type")) hi.spells

/-! ### Constants and conversions -/

theorem const_refines (hn : n.BuiltFrom variants) {c : Constant} (kind : n.variant = c.kind.variant)
    (holds : c.HeldBy n) (ty : Option Ty) :
    Refines (Rewritten n) (Typing.check R n) (Term.check R (.const c ty)) := by
  have hft : n.variant.field? "type" = some Kind.typeField := by rw [kind]; cases c <;> rfl
  have hrun : Typing.check R n = liftM (n.update [("type", .ofMember c.type)]) := by
    rw [Typing.check, Kind.of?_of_variant kind]
    cases c <;> rfl
  rw [hrun, Term.check]
  refine update_refines hn (.cons .nil hft admits_type (by simp)) (by simp) (by simp) fun n' hu => ?_
  refine .const (hu.variant.trans kind) ?_ (typeOf_of_get (hu.get "type"))
  cases c with
  | void => trivial
  | _ => exact (hu.get "val").trans holds

theorem cast_refines (hn : n.BuiltFrom variants) {via : Conversion} (kind : n.variant = via.kind.variant) {c : Node}
    (readsOperand : n.getNode "expr" = .ok c) {e : Term}
    (ih : Refines (Rewritten c) (Typing.check R c) (e.check R)) (ty : Option Ty) :
    Refines (Rewritten n) (Typing.check R n) (Term.check R (.cast via e ty)) := by
  have hf : n.variant.field? "expr" = some ⟨"expr", .node "Expr"⟩ := by rw [kind]; cases via <;> rfl
  have hrun : Typing.check R n = Typing.cast via.target n fun c => Typing.check R c.1 := by
    rw [Typing.check, Kind.of?_of_variant kind]
    cases via <;> rfl
  obtain ⟨_, hd⟩ := Node.descend_of_getNode readsOperand
  simp only [hrun, Typing.cast, hd, liftM_state_ok, pure_bind, Term.check]
  refine Refines.bind (expression_refines hn hf readsOperand ih) fun c e hc => ?_
  refine (Refines.lift (hc.ensure via.target)).mono fun m t hm => ⟨hm.builtFrom, hm.spells, fun _ => hm.expr, ?_⟩
  intro hs
  rw [isA_of_variant kind] at hs
  cases via <;> exact absurd hs Bool.false_ne_true

/-! ### Statements -/

theorem assignedType_refines {v : Node} {val : Term} (hv : Expression v val) {β : Type} {rel : Node → β → Prop}
    {f : Ty → Typing.CheckM Node} {g : Ty → InferM β} (hf : ∀ ty, Refines rel (f ty) (g ty)) :
    Refines rel
      (do
        let valueType ← Typing.carriedType v
        if valueType.isArray then throw (.typing (.arrayAssign valueType))
        f valueType)
      (do
        let valueType ← val.assignedType
        g valueType) := by
  simp only [hv.carriedType, Term.assignedType, liftM_bind, bind_assoc]
  refine Refines.bind_same fun ty _ => ?_
  by_cases harr : ty.isArray = true
  · rw [if_pos harr, if_pos harr]
    exact fun _ _ => rfl
  · rw [if_neg harr, if_neg harr]
    exact hf ty

section Assignment
variable (hn : n.BuiltFrom variants) (kind : n.variant = Kind.assign.variant) {r v : Node}
  (readsTarget : n.getNode "ref" = .ok r) (readsValue : n.getNode "val" = .ok v)
  (targetKind : r.variant = Kind.ref.variant)
include hn kind readsTarget targetKind

/-- The target of an assignment is rebuilt, and then the assignment. -/
theorem target_refines {index : Option Node} (hindex : ∀ i ∈ index, i.isA "Expr" = true ∧ i.BuiltFrom variants)
    {declared : Ty} {v : Node} {val t : Term} (hv : Expression v val)
    (hs : ∀ r' n', r.IsUpdate [("type", .ofMember declared), ("index", .ofOption index)] r' →
      n.IsUpdate [("ref", .node r'), ("val", .node v)] n' → Spells n' t) :
    Refines (σ := SymbolTable) (Rewritten n)
      (do
        let target ← r.update [("type", .ofMember declared), ("index", .ofOption index)]
        n.update [("ref", .node target), ("val", .node v)])
      (pure t) := by
  have hfr : n.variant.field? "ref" = some ⟨"ref", .node "Ref"⟩ := by rw [kind]; rfl
  have hfv : n.variant.field? "val" = some ⟨"val", .node "Expr"⟩ := by rw [kind]; rfl
  have hfi : r.variant.field? "index" = some ⟨"index", .optional (.node "Expr")⟩ := by rw [targetKind]; rfl
  have hft : r.variant.field? "type" = some Kind.typeField := by rw [targetKind]; rfl
  obtain ⟨hr, hrb⟩ := hn.of_getNode readsTarget hfr
  have hfits : (FieldType.optional (.node "Expr")).admits (.ofOption index) = true := by
    cases index with
    | none => rfl
    | some i => exact FieldType.admits_optional_iff.mpr (.inr (hindex i rfl).1)
  have hbuilt : (Value.ofOption index).BuiltFrom variants := by
    cases index with
    | none => exact Value.builtFrom_absent
    | some i => exact Value.builtFrom_node.mpr (hindex i rfl).2
  have hadm : r.Admits [("type", .ofMember declared), ("index", .ofOption index)] :=
    .cons (.cons .nil hfi hfits (by simp)) hft admits_type (by simp)
  refine Refines.bind_left
    (P := fun r' => r.IsUpdate [("type", .ofMember declared), ("index", .ofOption index)] r' ∧ r'.BuiltFrom variants)
    (fun w => ?_) fun r' ⟨hupd, hb⟩ => ?_
  · obtain ⟨r', hrun, hupd⟩ := hrb.built_update hadm (by simp [hbuilt]) (by simp) w
    exact ⟨r', _, hrun, hupd⟩
  · have hr' : (FieldType.node "Ref").admits (.node r') = true := by
      rw [FieldType.admits, Node.isA, hupd.variant]
      exact hr
    refine update_refines hn ?_ (by simp [hb, hv.builtFrom]) (by simp) fun n' hu => hs r' n' hupd hu
    exact .cons (.cons .nil hfv hv.admits (by simp)) hfr hr' (by simp)

include readsValue

theorem assign_refines {name : String} (readsName : r.getStr "name" = .ok name)
    (readsIndex : r.getNode? "index" = .ok none) {val : Term}
    (ih : Refines (Rewritten v) (Typing.check R v) (val.check R)) (ty : Option Ty) :
    Refines (Rewritten n) (Typing.check R n) (Term.check R (.assign name ty val)) := by
  have hfv : n.variant.field? "val" = some ⟨"val", .node "Expr"⟩ := by rw [kind]; rfl
  obtain ⟨_, hdv⟩ := Node.descend_of_getNode readsValue
  obtain ⟨_, hdr⟩ := Node.descend_of_getNode readsTarget
  rw [Typing.check, Kind.of?_of_variant kind]
  simp only [Typing.assign, hdv, hdr, checkedIndex_none readsIndex, readsName, liftM_state_ok, pure_bind, Term.check]
  refine Refines.bind (expression_refines hn hfv readsValue ih) fun v val hv => ?_
  refine assignedType_refines hv fun declared => ?_
  simp only [Typing.targetType, Option.isSome_none, Bool.false_eq_true, if_false, liftM_pure, pure_bind]
  refine Refines.bind (declare_refines name declared) ?_
  rintro _ _ -
  refine target_refines hn kind readsTarget targetKind (by simp) hv fun r' n' hr hu => ?_
  exact .assign (hu.variant.trans kind) (Node.getNode_of_get (hu.get "ref")) (Node.getNode_of_get (hu.get "val"))
    (hr.variant.trans targetKind) (hr.getStr rfl readsName) (Node.getNode?_of_get_absent (hr.get "index"))
    (typeOf_of_get (hr.get "type")) hv.spells

theorem store_refines {i : Node} {name : String} (readsName : r.getStr "name" = .ok name)
    (readsIndex : r.getNode? "index" = .ok (some i)) {index val : Term}
    (ihi : Refines (Rewritten i) (Typing.check R i) (index.check R))
    (ihv : Refines (Rewritten v) (Typing.check R v) (val.check R)) (ty : Option Ty) :
    Refines (Rewritten n) (Typing.check R n) (Term.check R (.store name index ty val)) := by
  have hfr : n.variant.field? "ref" = some ⟨"ref", .node "Ref"⟩ := by rw [kind]; rfl
  have hfv : n.variant.field? "val" = some ⟨"val", .node "Expr"⟩ := by rw [kind]; rfl
  obtain ⟨_, hdv⟩ := Node.descend_of_getNode readsValue
  obtain ⟨_, hdr⟩ := Node.descend_of_getNode readsTarget
  rw [Typing.check, Kind.of?_of_variant kind]
  simp only [Typing.assign, hdv, hdr, readsName, liftM_state_ok, pure_bind, Term.check]
  refine Refines.bind (expression_refines hn hfv readsValue ihv) fun v val hv => ?_
  refine assignedType_refines hv fun valueType => ?_
  rw [← bind_assoc (x := index.check R)]
  refine Refines.bind (checkedIndex_refines (hn.of_getNode readsTarget hfr).2 targetKind readsIndex ihi) ?_
  rintro _ index ⟨i, rfl, hi⟩
  refine Refines.bind_same fun declared _ => ?_
  refine Refines.bind (declare_refines name declared) ?_
  rintro _ _ -
  refine target_refines hn kind readsTarget targetKind (by simp [hi.expr, hi.builtFrom]) hv fun r' n' hr hu => ?_
  exact .store (hu.variant.trans kind) (Node.getNode_of_get (hu.get "ref")) (Node.getNode_of_get (hu.get "val"))
    (hr.variant.trans targetKind) (hr.getStr rfl readsName) (Node.getNode?_of_get (hr.get "index"))
    (typeOf_of_get (hr.get "type")) hi.spells hv.spells

end Assignment

theorem loopBound_refines (hn : n.BuiltFrom variants) (field : String) {label : String}
    (hf : n.variant.field? field = some ⟨field, .node "Expr"⟩) {c : Node} (hc : n.getNode field = .ok c) {e : Term}
    (ih : Refines (Rewritten c) (Typing.check R c) (e.check R)) :
    Refines Expression (Typing.loopBound n (fun c => Typing.check R c.1) field label)
      (do
        let bound ← e.check R
        bound.asInt (.nonIntBound label)) := by
  obtain ⟨_, hd⟩ := Node.descend_of_getNode hc
  simp only [Typing.loopBound, hd, liftM_state_ok, pure_bind]
  refine Refines.bind (expression_refines hn hf hc ih) fun c e hc => ?_
  exact hc.asInt (.nonIntBound label) hc

theorem loop_refines (hn : n.BuiltFrom variants) (kind : n.variant = Kind.loop.variant) {l u b : Node} {var : String}
    (readsVar : n.getStr "var" = .ok var) (readsMin : n.getNode "min" = .ok l) (readsMax : n.getNode "max" = .ok u)
    (readsBody : n.getNode "body" = .ok b) {min max body : Term}
    (ihl : Refines (Rewritten l) (Typing.check R l) (min.check R))
    (ihu : Refines (Rewritten u) (Typing.check R u) (max.check R))
    (ihb : Refines (Rewritten b) (Typing.check R b) (body.check R)) :
    Refines (Rewritten n) (Typing.check R n) (Term.check R (.loop var min max body)) := by
  have hfl : n.variant.field? "min" = some ⟨"min", .node "Expr"⟩ := by rw [kind]; rfl
  have hfu : n.variant.field? "max" = some ⟨"max", .node "Expr"⟩ := by rw [kind]; rfl
  have hfb : n.variant.field? "body" = some ⟨"body", .node "Stmt"⟩ := by rw [kind]; rfl
  obtain ⟨_, hdb⟩ := Node.descend_of_getNode readsBody
  rw [Typing.check, Kind.of?_of_variant kind]
  simp only [Typing.loop, readsVar, hdb, liftM_state_ok, pure_bind, Term.check]
  rw [← bind_assoc (x := min.check R)]
  refine Refines.bind (loopBound_refines hn "min" hfl readsMin ihl) fun l min hl => ?_
  rw [← bind_assoc (x := max.check R)]
  refine Refines.bind (loopBound_refines hn "max" hfu readsMax ihu) fun u max hu => ?_
  refine Refines.bind (declare_refines var .int) ?_
  rintro _ _ -
  refine Refines.bind ihb fun b' body hb => ?_
  have hstmt : (FieldType.node "Stmt").admits (.node b') = true := hb.stmt (hn.of_getNode readsBody hfb).1
  refine update_refines hn ?_ (by simp [hl.builtFrom, hu.builtFrom, hb.builtFrom]) (by simp) fun n' hupd => ?_
  · refine .cons (.cons (.cons .nil hfb hstmt ?_) hfu hu.admits ?_) hfl hl.admits ?_ <;> simp
  · exact .loop (hupd.variant.trans kind) (hupd.getStr rfl readsVar) (Node.getNode_of_get (hupd.get "min"))
      (Node.getNode_of_get (hupd.get "max")) (Node.getNode_of_get (hupd.get "body")) hl.spells hu.spells hb.spells

theorem ret_refines (hn : n.BuiltFrom variants) (kind : n.variant = Kind.ret.variant) {v : Node}
    (readsValue : n.getNode "val" = .ok v) {val : Term}
    (ih : Refines (Rewritten v) (Typing.check R v) (val.check R)) (ty : Option Ty) :
    Refines (Rewritten n) (Typing.check R n) (Term.check R (.ret val ty)) := by
  have hfv : n.variant.field? "val" = some ⟨"val", .node "Expr"⟩ := by rw [kind]; rfl
  have hft : n.variant.field? "type" = some Kind.typeField := by rw [kind]; rfl
  obtain ⟨_, hd⟩ := Node.descend_of_getNode readsValue
  rw [Typing.check, Kind.of?_of_variant kind]
  simp only [Typing.ret, hd, liftM_state_ok, pure_bind, Term.check]
  refine Refines.bind (expression_refines hn hfv readsValue ih) fun v val hv => ?_
  rw [hv.carriedType]
  refine Refines.bind_same fun found _ => ?_
  by_cases hret : R = some found
  · rw [if_pos hret, if_pos hret]
    refine update_refines hn ?_ (by simp [hv.builtFrom]) (by simp) fun n' hu => ?_
    · exact .cons (.cons .nil hft admits_type (by simp)) hfv hv.admits (by simp)
    · exact .ret (hu.variant.trans kind) (Node.getNode_of_get (hu.get "val")) (typeOf_of_get (hu.get "type")) hv.spells
  · rw [if_neg hret, if_neg hret]
    exact Refines.throw

/-! ### Nodes rebuilt field by field -/

theorem mapField_node {label : String} {sel : Selector} {f : Field} (hsel : sel.selects f = true) {c : Node} {t : Term}
    (hadm : ∀ c' t', Rewritten c c' t' → f.type.admits (.node c') = true)
    (ih : Refines (Rewritten c) (Typing.check R c) (t.check R)) :
    Refines (fun v t' => ∃ c', v = .node c' ∧ Rewritten c c' t') (Node.mapField label sel (Typing.check R) (f, .node c))
      (t.check R) := by
  rw [Node.mapField, if_pos hsel, ← bind_pure (t.check R)]
  simp only [Value.mapHeld, Value.mapNode, map_eq_pure_bind, bind_assoc, pure_bind]
  refine Refines.bind ih fun c' t' hc' => ?_
  rw [Field.checked, if_pos (hadm c' t' hc')]
  exact Refines.pure ⟨c', rfl, hc'⟩

theorem mapField_unselected {label : String} {sel : Selector} {f : Field} (hsel : sel.selects f = false)
    (g : Node → Typing.CheckM Node) (v : Value) : Node.mapField label sel g (f, v) = pure v := by
  rw [Node.mapField, if_neg (by simp [hsel])]

theorem mapField_absent {label name : String} {sel : Selector} {inner : FieldType} (g : Node → Typing.CheckM Node) :
    Node.mapField label sel g (⟨name, .optional inner⟩, .absent) = pure .absent := by
  have hadm : (FieldType.optional inner).admits .absent = true := FieldType.admits_optional_iff.mpr (.inl rfl)
  simp only [Node.mapField, Value.mapHeld, Value.mapNode, Field.checked, hadm, if_true, pure_bind]
  exact ite_self _

/-- `ns` are statements of the language that spell `ts`. -/
structure Statements (ns : List Node) (ts : List Term) : Prop where
  sameLength : ns.length = ts.length
  builtFrom : ∀ c ∈ ns, c.BuiltFrom variants
  stmt : ∀ c ∈ ns, c.isA "Stmt" = true
  spells : ∀ p ∈ ns.zip ts, Spells p.1 p.2

theorem Statements.cons {ns : List Node} {ts : List Term} (h : Statements ns ts) {c : Node} {t : Term}
    (hb : c.BuiltFrom variants) (hc : c.isA "Stmt" = true) (hs : Spells c t) : Statements (c :: ns) (t :: ts) where
  sameLength := congrArg (· + 1) h.sameLength
  builtFrom := List.forall_mem_cons.mpr ⟨hb, h.builtFrom⟩
  stmt := List.forall_mem_cons.mpr ⟨hc, h.stmt⟩
  spells := List.forall_mem_cons.mpr ⟨hs, h.spells⟩

theorem checkAll_refines {ns : List Node} {ts : List Term} (hlen : ns.length = ts.length)
    (hstmt : ∀ c ∈ ns, c.isA "Stmt" = true)
    (ih : ∀ p ∈ ns.zip ts, Refines (Rewritten p.1) (Typing.check R p.1) (p.2.check R)) :
    Refines Statements (ns.mapM (Typing.check R)) (Term.checkAll R ts) := by
  induction ns generalizing ts with
  | nil =>
    obtain rfl := List.eq_nil_of_length_eq_zero hlen.symm
    exact Refines.pure ⟨rfl, by simp, by simp, by simp⟩
  | cons n ns ihs =>
    match ts, hlen with
    | t :: ts, hlen =>
      rw [List.mapM_cons, Term.checkAll]
      refine Refines.bind (ih (n, t) List.mem_cons_self) fun n' t' hn' => ?_
      refine Refines.bind (ihs (Nat.succ.inj hlen) (fun c hc => hstmt c (List.mem_cons_of_mem _ hc))
        fun p hp => ih p (List.mem_cons_of_mem _ hp)) fun ns' ts' hns' => ?_
      exact Refines.pure (hns'.cons hn'.builtFrom (hn'.stmt (hstmt n List.mem_cons_self)) hn'.spells)

theorem mapField_statements {label name : String} {sel : Selector}
    (hsel : sel.selects ⟨name, .list (.node "Stmt")⟩ = true) {ns : List Node} {ts : List Term}
    (hlen : ns.length = ts.length) (hstmt : ∀ c ∈ ns, c.isA "Stmt" = true)
    (ih : ∀ p ∈ ns.zip ts, Refines (Rewritten p.1) (Typing.check R p.1) (p.2.check R)) :
    Refines (fun v ts' => ∃ ns', v = .nodeList ns' ∧ Statements ns' ts')
      (Node.mapField label sel (Typing.check R) (⟨name, .list (.node "Stmt")⟩, .nodeList ns))
      (Term.checkAll R ts) := by
  rw [Node.mapField, if_pos hsel, Value.mapHeld_nodeList, ← bind_pure (Term.checkAll R ts)]
  simp only [map_eq_pure_bind, bind_assoc, pure_bind]
  refine Refines.bind (checkAll_refines hlen hstmt ih) fun ns' ts' h => ?_
  rw [Field.checked, if_pos (FieldType.admits_nodes_iff.mpr ⟨ns', rfl, h.stmt⟩)]
  exact Refines.pure ⟨ns', rfl, h⟩

/-- A node with the values that replace those of `n`, if they fit. -/
theorem allocate_refines (hn : n.BuiltFrom variants) {values : List Value} {t : Term}
    (hfits : List.Forall₂ (fun (f : Field) v => f.type.admits v = true) n.variant.fields values)
    (hvals : ∀ v ∈ values, v.BuiltFrom variants) (hs : ∀ id, Spells (.mk id n.variant values) t) :
    Refines (σ := SymbolTable) (Rewritten n) (liftM (m := BuildM) (liftM (Node.allocate n.variant values))) (pure t) :=
  Refines.last fun w => by
    refine ⟨.mk w.nextId n.variant values, { w with nextId := w.nextId + 1 }, rfl, ?_⟩
    exact Rewritten.of_variant (Node.builtFrom_iff.mpr ⟨⟨hn.variant_mem, hfits⟩, hvals⟩) (hs _) rfl

theorem block_refines (hn : n.BuiltFrom variants) (kind : n.variant = Kind.block.variant) {ns : List Node}
    (readsBody : n.get "body" = .ok (.nodeList ns)) {body : List Term} (sameLength : ns.length = body.length)
    (ih : ∀ p ∈ ns.zip body, Refines (Rewritten p.1) (Typing.check R p.1) (p.2.check R)) :
    Refines (Rewritten n) (Typing.check R n) (Term.check R (.block body)) := by
  have hfields : n.fields = [(⟨"body", .list (.node "Stmt")⟩, .nodeList ns)] := by
    have hget : n.variant.fields.map (fun f => n.get f.name) = [Value.nodeList ns].map Except.ok := by
      rw [kind]
      exact congrArg (fun read => [read]) readsBody
    rw [Node.fields, hn.fits.values_eq (by rw [kind]; decide) hget, kind]
    rfl
  have hclass : (n.isA "Stmt" || n.isA "Expr") = true := by rw [isA_of_variant kind]; rfl
  have hstmt : ∀ c ∈ ns, c.isA "Stmt" = true := by
    have hf : n.variant.field? "body" = some ⟨"body", .list (.node "Stmt")⟩ := by rw [kind]; rfl
    obtain ⟨cs, hcs, h⟩ := hn.get_nodeList "body" hf
    obtain rfl : ns = cs := by
      rw [← Node.nodes_nodeList ns, ← Node.nodes_nodeList cs, Except.ok.inj (readsBody.symm.trans hcs)]
    exact fun c hc => (h c hc).1
  rw [Typing.check, Kind.of?_of_variant kind]
  simp only [hclass, if_true, Node.mapSmaller_eq, hfields, List.mapM_cons, List.mapM_nil, bind_assoc, pure_bind]
  rw [Term.check]
  refine Refines.bind (mapField_statements rfl sameLength hstmt ih) ?_
  rintro _ body ⟨ns', rfl, h⟩
  refine allocate_refines hn ?_ (by simpa using h.builtFrom) fun id => ?_
  · rw [kind]
    exact .cons (FieldType.admits_nodes_iff.mpr ⟨ns', rfl, h.stmt⟩) .nil
  · rw [kind]
    exact .block rfl rfl h.sameLength h.spells

/-- The branches of a condition, of which the second may be left out. -/
theorem branch_fields (hn : n.BuiltFrom variants) (kind : n.variant = Kind.branch.variant) {c b : Node} {e : Value}
    (readsCond : n.getNode "cond" = .ok c) (readsBody : n.getNode "body" = .ok b) (readsElse : n.get "else_body" = .ok e) :
    n.fields = [(⟨"cond", .node "Expr"⟩, .node c), (⟨"body", .node "Stmt"⟩, .node b),
      (⟨"else_body", .optional (.node "Stmt")⟩, e)] := by
  have hget : n.variant.fields.map (fun f => n.get f.name) = [Value.node c, .node b, e].map Except.ok := by
    rw [kind]
    show [n.get "cond", n.get "body", n.get "else_body"] = _
    rw [Node.get_of_getNode readsCond, Node.get_of_getNode readsBody, readsElse]
    rfl
  rw [Node.fields, hn.fits.values_eq (by rw [kind]; decide) hget, kind]
  rfl

theorem branch_refines (hn : n.BuiltFrom variants) (kind : n.variant = Kind.branch.variant) {c b : Node}
    (readsCond : n.getNode "cond" = .ok c) (readsBody : n.getNode "body" = .ok b)
    (readsElse : n.getNode? "else_body" = .ok none) {cond body : Term}
    (ihc : Refines (Rewritten c) (Typing.check R c) (cond.check R))
    (ihb : Refines (Rewritten b) (Typing.check R b) (body.check R)) :
    Refines (Rewritten n) (Typing.check R n) (Term.check R (.branch cond body)) := by
  have hfields := branch_fields hn kind readsCond readsBody (Node.get_absent_of_getNode? readsElse)
  have hclass : (n.isA "Stmt" || n.isA "Expr") = true := by rw [isA_of_variant kind]; rfl
  have hc : c.isA "Expr" = true := isA_child hn kind readsCond rfl
  have hb : b.isA "Stmt" = true := isA_child hn kind readsBody rfl
  rw [Typing.check, Kind.of?_of_variant kind]
  simp only [hclass, if_true, Node.mapSmaller_eq, hfields, List.mapM_cons, List.mapM_nil, bind_assoc, pure_bind,
    mapField_absent, Term.check]
  refine Refines.bind (mapField_node rfl (fun _ _ h => h.expr hc) ihc) ?_
  rintro _ cond ⟨c', rfl, hc'⟩
  refine Refines.bind (mapField_node rfl (fun _ _ h => h.stmt hb) ihb) ?_
  rintro _ body ⟨b', rfl, hb'⟩
  refine allocate_refines hn ?_ (by simp [hc'.builtFrom, hb'.builtFrom]) fun id => ?_
  · rw [kind]
    exact .cons (hc'.expr hc) (.cons (hb'.stmt hb) (.cons rfl .nil))
  · rw [kind]
    exact .branch rfl rfl rfl rfl hc'.spells hb'.spells

theorem branchElse_refines (hn : n.BuiltFrom variants) (kind : n.variant = Kind.branch.variant) {c b e : Node}
    (readsCond : n.getNode "cond" = .ok c) (readsBody : n.getNode "body" = .ok b)
    (readsElse : n.getNode? "else_body" = .ok (some e)) {cond body elseBody : Term}
    (ihc : Refines (Rewritten c) (Typing.check R c) (cond.check R))
    (ihb : Refines (Rewritten b) (Typing.check R b) (body.check R))
    (ihe : Refines (Rewritten e) (Typing.check R e) (elseBody.check R)) :
    Refines (Rewritten n) (Typing.check R n) (Term.check R (.branchElse cond body elseBody)) := by
  have hfields := branch_fields hn kind readsCond readsBody (Node.get_of_getNode? readsElse)
  have hclass : (n.isA "Stmt" || n.isA "Expr") = true := by rw [isA_of_variant kind]; rfl
  have hc : c.isA "Expr" = true := isA_child hn kind readsCond rfl
  have hb : b.isA "Stmt" = true := isA_child hn kind readsBody rfl
  have he : e.isA "Stmt" = true := isA_optionalChild hn kind readsElse rfl
  rw [Typing.check, Kind.of?_of_variant kind]
  simp only [hclass, if_true, Node.mapSmaller_eq, hfields, List.mapM_cons, List.mapM_nil, bind_assoc, pure_bind,
    Term.check]
  refine Refines.bind (mapField_node rfl (fun _ _ h => h.expr hc) ihc) ?_
  rintro _ cond ⟨c', rfl, hc'⟩
  refine Refines.bind (mapField_node rfl (fun _ _ h => h.stmt hb) ihb) ?_
  rintro _ body ⟨b', rfl, hb'⟩
  refine Refines.bind (mapField_node rfl (fun _ _ h => FieldType.admits_optional_iff.mpr (.inr (h.stmt he))) ihe) ?_
  rintro _ elseBody ⟨e', rfl, he'⟩
  refine allocate_refines hn ?_ (by simp [hc'.builtFrom, hb'.builtFrom, he'.builtFrom]) fun id => ?_
  · rw [kind]
    exact .cons (hc'.expr hc) (.cons (hb'.stmt hb) (.cons (FieldType.admits_optional_iff.mpr (.inr (he'.stmt he))) .nil))
  · rw [kind]
    exact .branchElse rfl rfl rfl rfl hc'.spells hb'.spells he'.spells

theorem funcDef_refines (hn : n.BuiltFrom variants) (kind : n.variant = Kind.funcDef.variant) {b : Node} {name : String}
    {args : List String} {ms : List Value} {types : List Ty} {returnType : Ty}
    (readsName : n.getStr "name" = .ok name) (readsArgs : n.get "args" = .ok (.list (args.map .str)))
    (readsTypes : n.get "arg_types" = .ok (.list ms)) (typesOf : ms.map (Value.asMember? Ty) = types.map some)
    (readsReturn : n.getMember Ty "return_type" = .ok returnType) (readsBody : n.getNode "body" = .ok b) {body : Term}
    (ih : Refines (Rewritten b) (Typing.check (some returnType) b) (body.check (some returnType))) :
    Refines (Rewritten n) (Typing.check R n) (Term.check R (.funcDef name args types returnType body)) := by
  obtain ⟨rt, hrt, hmember⟩ := Node.get_of_getMember readsReturn
  have hb : b.isA "Stmt" = true := isA_child hn kind readsBody rfl
  have hvalues : n.values = [.str name, .list (args.map .str), .node b, .list ms, rt] := by
    refine hn.fits.values_eq (by rw [kind]; decide) ?_
    rw [kind]
    show [n.get "name", n.get "args", n.get "body", n.get "arg_types", n.get "return_type"] = _
    rw [Node.get_of_getStr readsName, readsArgs, Node.get_of_getNode readsBody, readsTypes, hrt]
    rfl
  have hfields : n.fields = [(⟨"name", .str⟩, .str name), (⟨"args", .list .str⟩, .list (args.map .str)),
      (⟨"body", .node "Stmt"⟩, .node b), (⟨"arg_types", .list (.enum Ty)⟩, .list ms),
      (⟨"return_type", .enum Ty⟩, rt)] := by
    rw [Node.fields, hvalues, kind]
    rfl
  have hlen : ms.length = types.length := by simpa using congrArg List.length typesOf
  rw [Typing.check, Kind.of?_of_variant kind]
  simp only [Typing.funcDef, readsArgs, readsTypes, readsName, readsReturn, liftM_state_ok, pure_bind, Value.items?,
    Option.getD_some, List.length_map, Node.mapSmaller_eq, hfields, List.mapM_cons, List.mapM_nil, bind_assoc,
    Term.check, hlen]
  by_cases harity : args.length ≠ types.length
  · rw [if_pos harity, if_pos harity]
    exact fun _ _ => rfl
  rw [if_neg harity, if_neg harity]
  refine Refines.bind (declareArguments_refines args typesOf) ?_
  rintro _ _ -
  -- Only the body is selected; the other fields keep their values.
  rw [mapField_unselected rfl, mapField_unselected rfl, pure_bind, pure_bind]
  refine Refines.bind (mapField_node rfl (fun _ _ h => h.stmt hb) ih) ?_
  rintro _ body ⟨b', rfl, hb'⟩
  rw [mapField_unselected rfl, mapField_unselected rfl, pure_bind, pure_bind]
  have hfits := hn.fits
  have hvals := (Node.builtFrom_iff.mp hn).2
  rw [Node.Fits, hvalues, kind] at hfits
  rw [hvalues] at hvals
  obtain _ | ⟨hname, _ | ⟨hargs, _ | ⟨-, hrest⟩⟩⟩ := hfits
  refine allocate_refines hn ?_ ?_ fun id => ?_
  · rw [kind]
    exact .cons hname (.cons hargs (.cons (hb'.stmt hb) hrest))
  · simp only [List.forall_mem_cons] at hvals ⊢
    exact ⟨hvals.1, hvals.2.1, Value.builtFrom_node.mpr hb'.builtFrom, hvals.2.2.2⟩
  · rw [kind]
    exact .funcDef rfl rfl rfl rfl typesOf (Node.getMember_of_get rfl hmember) rfl hb'.spells

end Rules

/-! ### Programs -/

/-- The checker of a tree does what the typing of its term says. -/
theorem check_refines {n : Node} {t : Term} (h : Spells n t) (hn : n.BuiltFrom variants) (R : Option Ty) :
    Refines (Rewritten n) (Typing.check R n) (t.check R) := by
  -- The return type changes inside functions, so the induction is over all of them.
  induction h generalizing R with
  | binOp kind readsOp readsLeft readsRight _ _ _ ihl ihr =>
    exact binOp_refines hn kind readsOp readsLeft readsRight (ihl (builtFrom_child hn kind readsLeft rfl) R)
      (ihr (builtFrom_child hn kind readsRight rfl) R) _
  | cmpOp kind readsOp readsLeft readsRight _ _ _ ihl ihr =>
    exact cmpOp_refines hn kind readsOp readsLeft readsRight (ihl (builtFrom_child hn kind readsLeft rfl) R)
      (ihr (builtFrom_child hn kind readsRight rfl) R) _
  | unOp kind readsOp readsOperand _ _ ih =>
    exact unOp_refines hn kind readsOp readsOperand (ih (builtFrom_child hn kind readsOperand rfl) R) _
  | var kind readsName readsIndex _ => exact var_refines hn kind readsName readsIndex _
  | element kind readsName readsIndex _ _ ih =>
    exact element_refines hn kind readsName readsIndex (ih (builtFrom_optionalChild hn kind readsIndex rfl) R) _
  | const kind holds _ => exact const_refines hn kind holds _
  | @cast n c via e ty kind readsOperand _ _ ih =>
    have hf : via.kind.variant.field? "expr" = some ⟨"expr", .node "Expr"⟩ := by cases via <;> rfl
    exact cast_refines hn kind readsOperand (ih (builtFrom_child hn kind readsOperand hf) R) _
  | assign kind readsTarget readsValue targetKind readsName readsIndex _ _ ih =>
    exact assign_refines hn kind readsTarget readsValue targetKind readsName readsIndex
      (ih (builtFrom_child hn kind readsValue rfl) R) _
  | store kind readsTarget readsValue targetKind readsName readsIndex _ _ _ ihi ihv =>
    exact store_refines hn kind readsTarget readsValue targetKind readsName readsIndex
      (ihi (builtFrom_optionalChild (builtFrom_child hn kind readsTarget rfl) targetKind readsIndex rfl) R)
      (ihv (builtFrom_child hn kind readsValue rfl) R) _
  | block kind readsBody sameLength _ ih =>
    refine block_refines hn kind readsBody sameLength fun p hp => ih p hp (hn.of_get readsBody ?_) R
    rw [Node.nodes_nodeList]
    exact (List.of_mem_zip hp).1
  | branch kind readsCond readsBody readsElse _ _ ihc ihb =>
    exact branch_refines hn kind readsCond readsBody readsElse (ihc (builtFrom_child hn kind readsCond rfl) R)
      (ihb (builtFrom_child hn kind readsBody rfl) R)
  | branchElse kind readsCond readsBody readsElse _ _ _ ihc ihb ihe =>
    exact branchElse_refines hn kind readsCond readsBody readsElse (ihc (builtFrom_child hn kind readsCond rfl) R)
      (ihb (builtFrom_child hn kind readsBody rfl) R) (ihe (builtFrom_optionalChild hn kind readsElse rfl) R)
  | loop kind readsVar readsMin readsMax readsBody _ _ _ ihl ihu ihb =>
    exact loop_refines hn kind readsVar readsMin readsMax readsBody (ihl (builtFrom_child hn kind readsMin rfl) R)
      (ihu (builtFrom_child hn kind readsMax rfl) R) (ihb (builtFrom_child hn kind readsBody rfl) R)
  | ret kind readsValue _ _ ih => exact ret_refines hn kind readsValue (ih (builtFrom_child hn kind readsValue rfl) R) _
  | funcDef kind readsName readsArgs readsTypes typesOf readsReturn readsBody _ ih =>
    exact funcDef_refines hn kind readsName readsArgs readsTypes typesOf readsReturn readsBody
      (ih (builtFrom_child hn kind readsBody rfl) _)

end TypedTree.Expr
