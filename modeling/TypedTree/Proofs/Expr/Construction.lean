import TypedTree.Expr.Typing
import TypedTree.Proofs.Tree.Construction

/-! What typing constructs. Every rule builds from the node it is for and from what checking made of the nodes below,
    with conversions around them where types differ, so a typed tree is constructed from the tree it was made of. This is
    so of any tree, and up to the failure where typing fails. -/

namespace TypedTree.Expr.Typing
variable {K : Set Node} {n : Node}

/-- Typing is followed without its symbols, which hold no nodes. -/
abbrev tracking : Tracking CheckM := .ofState fun _ => ∅

/-! ### Conversions -/

theorem ensure_adds {e : Node} (he : Within K e) (target : Ty) : Adds K (ensure e target) fun e' => {e'} := by
  rw [ensure]
  refine Adds.readBind fun found _ => ?_
  split
  · exact Adds.pure fun m hm => Set.mem_singleton_iff.mp hm ▸ he
  · split
    · exact build_adds (by simpa using he)
    · exact Adds.throw _

theorem unaryOperand_adds {e : Node} (he : Within K e) (op : UnaryOp) :
    Adds K (unaryOperand op e) fun e' => {e'} := by
  cases op with
  | neg =>
    refine Adds.readBind fun found _ => ?_
    split
    · exact ensure_adds he .int
    · exact Adds.pure fun m hm => Set.mem_singleton_iff.mp hm ▸ he
  | not => exact ensure_adds he .bool

/-! ### Names -/

theorem lookup_adds (name : String) : tracking.Adds K (lookup name) fun _ => ∅ := by
  refine tracking.after Tracking.get fun symbols => ?_
  split
  · exact tracking.value _
  · exact Tracking.throw

theorem declare_adds (name : String) (ty : Ty) : tracking.Adds K (declare name ty) fun _ => ∅ := by
  refine tracking.after Tracking.get fun symbols => Tracking.readBind fun symbols' _ => ?_
  exact Tracking.change fun _ _ hn => hn.elim

/-! ### Rules -/

section Rules
variable {recurse : n.Smaller → CheckM Node}

/-- What checks the nodes below constructs what it gives from the node that it is called with. -/
def Checks (recurse : n.Smaller → CheckM Node) : Prop :=
  ∀ (K : Set Node) (c : n.Smaller), Within K c.1 → tracking.Adds K (recurse c) fun n' => {n'}

theorem operands_adds (hn : Within K n) (h : Checks recurse) :
    tracking.Adds K (operands n recurse) fun p => {p.1, p.2} := by
  refine Tracking.readBind fun l hl => tracking.bind (h _ l (hn.child (Node.mem_children_of_descend hl))) fun left => ?_
  refine Tracking.readBind fun r hr => ?_
  refine tracking.bind (h _ r (hn.child (Node.mem_children_of_descend hr)).left) fun right => tracking.pure ?_
  rintro c (rfl | rfl)
  · exact within_of_mem (.inl (.inr rfl))
  · exact within_of_mem (.inr rfl)

/-- The rule for an operation ends with its operands in place, as they are or converted. -/
theorem operation_adds {left right : Node} {ty : Ty} (hn : Within K n) (hl : Within K left) (hr : Within K right) :
    Adds K (n.update [("left", .node left), ("right", .node right), ("type", .ofMember ty)]) fun n' => {n'} :=
  update_adds hn (by simp [hl, hr])

theorem convertedOperands_adds {left right : Node} {target ty : Ty} (hn : Within K n) (hl : Within K left)
    (hr : Within K right) :
    tracking.Adds K (do
      let left ← ensure left target
      let right ← ensure right target
      n.update [("left", .node left), ("right", .node right), ("type", .ofMember ty)]) fun n' => {n'} := by
  refine tracking.bind (tracking.lift (ensure_adds hl target)) fun left' => ?_
  refine tracking.bind (tracking.lift (ensure_adds hr.left target)) fun right' => tracking.lift ?_
  exact operation_adds hn.left.left (within_of_mem (.inl (.inr rfl))) (within_of_mem (.inr rfl))

theorem binOp_adds (hn : Within K n) (h : Checks recurse) : tracking.Adds K (binOp n recurse) fun n' => {n'} := by
  rw [binOp]
  refine Tracking.readBind fun op _ => tracking.bind (operands_adds hn h) fun p => ?_
  refine Tracking.readBind fun leftType _ => Tracking.readBind fun rightType _ => ?_
  have hl : Within (K ∪ {p.1, p.2}) p.1 := within_of_mem (.inr (.inl rfl))
  have hr : Within (K ∪ {p.1, p.2}) p.2 := within_of_mem (.inr (.inr rfl))
  have typed (target : Ty) : tracking.Adds (K ∪ {p.1, p.2})
      (if leftType = rightType ∧ target = leftType then
        n.update [("left", .node p.1), ("right", .node p.2), ("type", .ofMember target)]
      else do
        let left ← ensure p.1 target
        let right ← ensure p.2 target
        n.update [("left", .node left), ("right", .node right), ("type", .ofMember target)]) fun n' => {n'} := by
    split
    · exact tracking.lift (operation_adds hn.left hl hr)
    · exact convertedOperands_adds hn.left hl hr
  split
  · exact typed _
  · exact Tracking.readBind fun target _ => typed target

theorem cmpOp_adds (hn : Within K n) (h : Checks recurse) : tracking.Adds K (cmpOp n recurse) fun n' => {n'} := by
  rw [cmpOp]
  refine Tracking.readBind fun op _ => tracking.bind (operands_adds hn h) fun p => ?_
  refine Tracking.readBind fun leftType _ => Tracking.readBind fun rightType _ => ?_
  have hl : Within (K ∪ {p.1, p.2}) p.1 := within_of_mem (.inr (.inl rfl))
  have hr : Within (K ∪ {p.1, p.2}) p.2 := within_of_mem (.inr (.inr rfl))
  split
  · exact tracking.lift (operation_adds hn.left hl hr)
  · exact Tracking.readBind fun target _ => convertedOperands_adds hn.left hl hr

theorem unOp_adds (hn : Within K n) (h : Checks recurse) : tracking.Adds K (unOp n recurse) fun n' => {n'} := by
  rw [unOp]
  refine Tracking.readBind fun op _ => Tracking.readBind fun c hc => ?_
  refine tracking.bind (h _ c (hn.child (Node.mem_children_of_descend hc))) fun e => ?_
  refine tracking.bind (tracking.lift (unaryOperand_adds (within_of_mem (.inr rfl)) op)) fun e' => ?_
  refine Tracking.readBind fun result _ => tracking.lift (update_adds hn.left.left ?_)
  have he : Within (K ∪ {e} ∪ {e'}) e' := within_of_mem (.inr rfl)
  simpa using he

theorem checkedIndex_adds (hn : Within K n) (h : Checks recurse) :
    tracking.Adds K (checkedIndex n recurse) fun o => { c | c ∈ o } := by
  rw [checkedIndex]
  refine Tracking.readBind fun o ho => ?_
  cases o with
  | none => exact tracking.pure (by simp)
  | some index =>
    refine tracking.bind (h _ index (hn.child (Node.mem_children_of_descend? ho))) fun index' => ?_
    refine Tracking.readBind fun found _ => ?_
    split
    · refine tracking.pure ?_
      rintro c ⟨⟩
      exact within_of_mem (.inr rfl)
    · exact Tracking.throw

theorem ref_adds (hn : Within K n) (h : Checks recurse) : tracking.Adds K (ref n recurse) fun n' => {n'} := by
  rw [ref]
  refine Tracking.readBind fun name _ => tracking.after (lookup_adds name) fun declared => ?_
  refine tracking.bind (checkedIndex_adds hn h) fun index => Tracking.readBind fun result _ => ?_
  have hindex : ∀ c ∈ index, Within (K ∪ { c | c ∈ index }) c := fun c hc => within_of_mem (.inr hc)
  exact tracking.lift (update_adds hn.left (by simpa using hindex))

theorem cast_adds (hn : Within K n) (h : Checks recurse) (target : Ty) :
    tracking.Adds K (cast target n recurse) fun n' => {n'} := by
  refine Tracking.readBind fun c hc => ?_
  refine tracking.bind (h _ c (hn.child (Node.mem_children_of_descend hc))) fun e => ?_
  exact tracking.lift (ensure_adds (within_of_mem (.inr rfl)) target)

theorem assign_adds (hn : Within K n) (h : Checks recurse) : tracking.Adds K (assign n recurse) fun n' => {n'} := by
  rw [assign]
  refine Tracking.readBind fun v hv => tracking.bind (h _ v (hn.child (Node.mem_children_of_descend hv))) fun val => ?_
  refine Tracking.readBind fun valueType _ => ?_
  split
  · exact Tracking.throwBind
  · refine Tracking.readBind fun target htarget => ?_
    have ht : Within (K ∪ {val}) target.1 := (hn.child (Node.mem_children_of_descend htarget)).left
    refine tracking.bind (checkedIndex_adds ht fun L c hc => h L _ hc) fun index => ?_
    refine Tracking.readBind fun declared _ => Tracking.readBind fun name _ => ?_
    refine tracking.after (declare_adds name declared) fun _ => ?_
    have hindex : ∀ c ∈ index, Within (K ∪ {val} ∪ { c | c ∈ index }) c := fun c hc => within_of_mem (.inr hc)
    refine tracking.bind (tracking.lift (update_adds ht.left (by simpa using hindex))) fun target' => ?_
    have hval : Within (K ∪ {val} ∪ { c | c ∈ index } ∪ {target'}) val := within_of_mem (.inl (.inl (.inr rfl)))
    have htarget' : Within (K ∪ {val} ∪ { c | c ∈ index } ∪ {target'}) target' := within_of_mem (.inr rfl)
    exact tracking.lift (update_adds hn.left.left.left (by simpa using And.intro htarget' hval))

theorem loopBound_adds (hn : Within K n) (h : Checks recurse) (field label : String) :
    tracking.Adds K (loopBound n recurse field label) fun n' => {n'} := by
  refine Tracking.readBind fun c hc => tracking.bind (h _ c (hn.child (Node.mem_children_of_descend hc))) fun bound => ?_
  refine Tracking.readBind fun found _ => ?_
  split
  · exact tracking.pure fun _ hm => within_of_mem (.inr hm)
  · exact Tracking.throw

theorem loop_adds (hn : Within K n) (h : Checks recurse) : tracking.Adds K (loop n recurse) fun n' => {n'} := by
  rw [loop]
  refine tracking.bind (loopBound_adds hn h "min" "Lower") fun min => ?_
  refine tracking.bind (loopBound_adds hn.left h "max" "Upper") fun max => ?_
  refine Tracking.readBind fun var _ => tracking.after (declare_adds var .int) fun _ => Tracking.readBind fun c hc => ?_
  refine tracking.bind (h _ c (hn.child (Node.mem_children_of_descend hc)).left.left) fun body => ?_
  refine tracking.lift (update_adds hn.left.left.left ?_)
  have hmin : Within (K ∪ {min} ∪ {max} ∪ {body}) min := within_of_mem (by simp)
  have hmax : Within (K ∪ {min} ∪ {max} ∪ {body}) max := within_of_mem (by simp)
  have hbody : Within (K ∪ {min} ∪ {max} ∪ {body}) body := within_of_mem (by simp)
  simpa using And.intro hmin (And.intro hmax hbody)

theorem ret_adds (hn : Within K n) (h : Checks recurse) (returnType : Option Ty) :
    tracking.Adds K (ret returnType n recurse) fun n' => {n'} := by
  refine Tracking.readBind fun c hc => tracking.bind (h _ c (hn.child (Node.mem_children_of_descend hc))) fun val => ?_
  refine Tracking.readBind fun found _ => ?_
  have hval : Within (K ∪ {val}) val := within_of_mem (.inr rfl)
  split
  · exact tracking.lift (update_adds hn.left (by simpa using hval))
  · exact Tracking.throw

theorem declareArguments_adds (args types : List Value) :
    tracking.Adds K (declareArguments args types) fun _ => ∅ := by
  fun_induction declareArguments (m := CheckM) args types with
  | case1 name args ty types _ t _ ih => exact tracking.after (declare_adds name t) fun _ => ih
  | case2 name args ty types _ _ ih => exact ih
  | case3 _ args _ types _ ih => exact ih
  | case4 => exact tracking.value _

theorem funcDef_adds {recurse : Option Ty → n.Smaller → CheckM Node} (hn : Within K n) (h : ∀ R, Checks (recurse R)) :
    tracking.Adds K (funcDef n recurse) fun n' => {n'} := by
  rw [funcDef]
  refine Tracking.readBind fun args _ => Tracking.readBind fun types _ => ?_
  dsimp only
  split
  · exact Tracking.readBind fun name _ => Tracking.throwBind
  · refine tracking.after (declareArguments_adds _ _) fun _ => Tracking.readBind fun R _ => ?_
    exact tracking.mapSmaller hn fun c hc => h _ _ c (hn.child hc)

end Rules

/-! ### Programs -/

theorem check_adds {K : Set Node} (returnType : Option Ty) (n : Node) (hn : Within K n) :
    tracking.Adds K (check returnType n) fun n' => {n'} := by
  have below (R : Option Ty) : Checks (n := n) fun c => check R c.1 := fun _ c hc => check_adds R c.1 hc
  have annotated (ty : Ty) : tracking.Adds K (n.update [("type", .ofMember ty)]) fun n' => {n'} :=
    tracking.lift (update_adds hn (by simp))
  have rebuilt : tracking.Adds K
      (if n.isA "Stmt" || n.isA "Expr" then
        n.mapSmaller (.classes ["Stmt", "Expr"]) fun c => check returnType c.1
      else throw (.pass (.unknownNode passName n.kind))) fun n' => {n'} := by
    split
    · exact tracking.mapSmaller hn fun c hc => below returnType K c (hn.child hc)
    · exact Tracking.throw
  rw [check]
  split
  · exact binOp_adds hn (below _)
  · exact cmpOp_adds hn (below _)
  · exact unOp_adds hn (below _)
  · exact ref_adds hn (below _)
  · exact annotated .int
  · exact annotated .float
  · exact annotated .bool
  · exact annotated .void
  · exact cast_adds hn (below _) .int
  · exact cast_adds hn (below _) .float
  · exact cast_adds hn (below _) .bool
  · exact assign_adds hn (below _)
  · exact loop_adds hn (below _)
  · exact ret_adds hn (below _) returnType
  · exact funcDef_adds hn below
  · exact rebuilt
  · exact rebuilt
  · exact rebuilt
termination_by sizeOf n
decreasing_by exact c.2

theorem analyze_adds (hn : Within K n) : Adds K (analyze n) fun r => {r.tree} := by
  rw [analyze]
  refine Adds.bind (Tracking.run (check_adds none n hn) fun _ hm => hm.elim) fun p => ?_
  refine Tracking.ofBuild.after (Adds.logs (e := .ok ()) fun _ => rfl) fun _ => Adds.pure fun _ hm => ?_
  exact within_of_mem (.inr (.inl hm))

end TypedTree.Expr.Typing
