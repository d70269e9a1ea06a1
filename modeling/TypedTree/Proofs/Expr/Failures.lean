import TypedTree.Proofs.Expr.ExpressionTypes

/-! Why typing fails. Every failure of typing a tree of the language is an error of the program: a name, a bound, an
    index, a return, an assignment or a function is not as it has to be, or an operator of the tree has operands that
    cannot be combined. Rebuilding never breaks a node, no rule misses a type, and nothing is converted to a type that
    there is no conversion to. -/

namespace TypedTree.Expr

/-! ### Errors of programs -/

/-- The node combines two operands under the operator of that name. -/
inductive Combines (n : Node) : String → Prop
  | binOp {op} (kind : n.variant = Kind.binOp.variant) (reads : n.getMember BinaryOp "op" = .ok op) :
      Combines n (Enumerated.name op)
  | cmpOp {op} (kind : n.variant = Kind.cmpOp.variant) (reads : n.getMember Comparison "op" = .ok op) :
      Combines n (Enumerated.name op)

/-- The error is one of the program `n`. -/
inductive Genuine (n : Node) : TypingError → Prop
  | redeclared {name declared found} (differ : declared ≠ found) : Genuine n (.redeclared name declared found)
  | undefined {name} : Genuine n (.undefined name)
  | notSubscriptable {found} (noArray : found.isArray = false) : Genuine n (.notSubscriptable found)
  | nonIntIndex {found} (notInt : found ≠ .int) : Genuine n (.nonIntIndex found)
  | nonIntBound {bound found} (label : bound = "Lower" ∨ bound = "Upper") (notInt : found ≠ .int) :
      Genuine n (.nonIntBound bound found)
  | returnMismatch {expected found} (differ : expected ≠ some found) : Genuine n (.returnMismatch expected found)
  | arrayAssign {found} (array : found.isArray = true) : Genuine n (.arrayAssign found)
  | noArrayType : Genuine n (.noArrayType .void)
  | arityMismatch {name args types} (differ : args ≠ types) : Genuine n (.arityMismatch name args types)
  | operandMismatch {c op left right} (inside : c ∈ n.occurrences) (combines : Combines c op) (differ : left ≠ right)
      (leftNumber : left ≠ .int ∧ left ≠ .float) (rightNumber : right ≠ .int ∧ right ≠ .float) :
      Genuine n (.operandMismatch op left right)

namespace Genuine
variable {n c : Node} {cause : TypingError}

/-- What is wrong with a part of a program is wrong with the program. -/
theorem of_child (hc : c ∈ n.children) (h : Genuine c cause) : Genuine n cause := by
  cases h with
  | redeclared differ => exact .redeclared differ
  | undefined => exact .undefined
  | notSubscriptable noArray => exact .notSubscriptable noArray
  | nonIntIndex notInt => exact .nonIntIndex notInt
  | nonIntBound label notInt => exact .nonIntBound label notInt
  | returnMismatch differ => exact .returnMismatch differ
  | arrayAssign array => exact .arrayAssign array
  | noArrayType => exact .noArrayType
  | arityMismatch differ => exact .arityMismatch differ
  | operandMismatch inside combines differ leftNumber rightNumber =>
    exact .operandMismatch (Node.mem_occurrences_of_child hc inside) combines differ leftNumber rightNumber

theorem ne_untyped (h : Genuine n cause) (variant : String) : cause ≠ .untyped variant := by
  rintro rfl
  cases h

theorem ne_cast (h : Genuine n cause) (left right : Ty) : cause ≠ .operandMismatch "cast" left right := by
  -- No operator has the name that stands for a conversion in an error.
  have named : ∀ {c : Node} {op : String}, Combines c op → op ≠ "cast" := by
    intro c op hop
    cases hop with
    | @binOp op => cases op <;> decide
    | @cmpOp op => cases op <;> decide
  rintro rfl
  cases h with
  | operandMismatch _ combines => exact named combines rfl

end Genuine

/-! ### Computations that fail with some errors only -/

/-- Every failure is a typing error that satisfies `E`. -/
def FailsOnly {α : Type} (E : TypingError → Prop) (x : InferM α) : Prop :=
  ∀ G e, x.run G = .error e → ∃ cause, e = .typing cause ∧ E cause

namespace FailsOnly
variable {α β : Type} {E E' : TypingError → Prop}

theorem pure {a : α} : FailsOnly E (Pure.pure a) := by
  intro G e hrun
  cases hrun

theorem throw {cause : TypingError} (h : E cause) : FailsOnly (α := α) E (MonadExcept.throw (.typing cause)) := by
  intro G e hrun
  cases hrun
  exact ⟨cause, rfl, h⟩

theorem bind {x : InferM α} {f : α → InferM β} (hx : FailsOnly E x)
    (hf : ∀ G a G', x.run G = .ok (a, G') → FailsOnly E (f a)) : FailsOnly E (x >>= f) := by
  intro G e hrun
  rw [StateT.run_bind] at hrun
  cases h : x.run G with
  | error e' =>
    rw [h] at hrun
    cases hrun
    exact hx G _ h
  | ok p =>
    rw [h] at hrun
    exact hf G p.1 p.2 h p.2 e hrun

theorem lift {x : Except Error α} (h : ∀ e, x = .error e → ∃ cause, e = .typing cause ∧ E cause) :
    FailsOnly E (liftM x) := by
  intro G e hrun
  cases x with
  | ok a => cases hrun
  | error e' =>
    cases hrun
    exact h _ rfl

/-- A step of its own after one that reads or computes. -/
theorem lift_bind {x : Except Error α} {f : α → InferM β} (hx : FailsOnly E (liftM x))
    (hf : ∀ a, x = .ok a → FailsOnly E (f a)) : FailsOnly E (liftM x >>= f) := by
  cases x with
  | ok a => exact hf a rfl
  | error e =>
    refine hx.bind fun G a G' hrun => ?_
    cases hrun

theorem ok_bind {x : Except Error α} {f : α → InferM β} {a : α} (hx : x = .ok a) (hf : FailsOnly E (f a)) :
    FailsOnly E (liftM x >>= f) := by
  subst hx
  exact hf

theorem mono {x : InferM α} (hx : FailsOnly E x) (h : ∀ cause, E cause → E' cause) : FailsOnly E' x := by
  intro G e hrun
  obtain ⟨cause, rfl, hc⟩ := hx G e hrun
  exact ⟨cause, rfl, h cause hc⟩

end FailsOnly

/-! ### Steps of the rules -/

section Steps
variable {n : Node} {t : Term} {ty left right : Ty} {e : Error}

theorem failsOnly_lookup (name : String) : FailsOnly (Genuine n) (lookup name) := by
  intro G e hrun
  simp only [lookup, StateT.run_bind, StateT.run_get, pure_bind] at hrun
  cases hg : G.get? name with
  | some found => rw [hg] at hrun; cases hrun
  | none =>
    rw [hg] at hrun
    cases hrun
    exact ⟨_, rfl, .undefined⟩

theorem failsOnly_declare (name : String) (ty : Ty) : FailsOnly (Genuine n) (declare name ty) := by
  intro G e hrun
  simp only [declare, StateT.run_bind, StateT.run_get, pure_bind, SymbolTable.declare] at hrun
  cases hg : G.get? name with
  | none => rw [hg] at hrun; cases hrun
  | some declared =>
    rw [hg] at hrun
    by_cases hd : declared = ty
    · simp only [if_pos hd] at hrun
      cases hrun
    · simp only [if_neg hd] at hrun
      cases hrun
      exact ⟨_, rfl, .redeclared hd⟩

theorem failsOnly_declareAll (ds : List (String × Ty)) : FailsOnly (Genuine n) (declareAll ds) := by
  induction ds with
  | nil => exact .pure
  | cons d ds ih => exact (failsOnly_declare d.1 d.2).bind fun _ _ _ _ => ih

theorem failsOnly_asInt {error : Ty → TypingError} (ht : t.type? = some ty)
    (h : ∀ found, found ≠ .int → Genuine n (error found)) : FailsOnly (Genuine n) (liftM (t.asInt error)) := by
  refine .lift fun e he => ?_
  rw [Term.asInt, Term.carried_eq_ok.mpr ht, ok_bind] at he
  by_cases hint : ty = .int
  · rw [if_pos hint] at he
    cases he
  · rw [if_neg hint] at he
    cases he
    exact ⟨_, rfl, h ty hint⟩

theorem failsOnly_assignedType (ht : t.type? = some ty) : FailsOnly (Genuine n) (liftM t.assignedType) := by
  refine .lift fun e he => ?_
  rw [Term.assignedType, Term.carried_eq_ok.mpr ht, ok_bind] at he
  by_cases harray : ty.isArray = true
  · rw [if_pos harray] at he
    cases he
    exact ⟨_, rfl, .arrayAssign harray⟩
  · rw [if_neg harray] at he
    cases he

theorem failsOnly_elementType (declared : Ty) : FailsOnly (Genuine n) (liftM (Typing.referenceType declared true)) := by
  refine .lift fun e he => ?_
  unfold Typing.referenceType at he
  by_cases harray : declared.isArray = true
  · rw [if_pos rfl, if_pos harray] at he
    cases he
  · rw [if_pos rfl, if_neg harray] at he
    cases he
    exact ⟨_, rfl, .notSubscriptable (by simpa using harray)⟩

theorem failsOnly_arrayType (item : Ty) : FailsOnly (Genuine n) (liftM (Typing.targetType item true)) := by
  refine .lift fun e he => ?_
  cases item <;> cases he
  exact ⟨_, rfl, .noArrayType⟩

/-- Operands that cannot be combined are of two types, and neither is a number. -/
theorem promote_eq_error {op : String} (h : Typing.promote op left right = .error e) :
    e = .typing (.operandMismatch op left right) ∧ (left ≠ .int ∧ left ≠ .float) ∧ right ≠ .int ∧ right ≠ .float := by
  unfold Typing.promote at h
  split_ifs at h with hfloat hint <;> cases h
  exact ⟨rfl, ⟨fun hl => hint (.inl hl), fun hl => hfloat (.inl hl)⟩, fun hr => hint (.inr hr), fun hr => hfloat (.inr hr)⟩

theorem genuine_of_promote {op : String} (hop : Combines n op) (differ : left ≠ right)
    (h : Typing.promote op left right = .error e) : ∃ cause, e = .typing cause ∧ Genuine n cause := by
  obtain ⟨rfl, leftNumber, rightNumber⟩ := promote_eq_error h
  exact ⟨_, rfl, .operandMismatch n.self_mem_occurrences hop differ leftNumber rightNumber⟩

theorem failsOnly_operandType {op : BinaryOp} (hop : Combines n (Enumerated.name op)) :
    FailsOnly (Genuine n) (liftM (op.operandType left right)) := by
  refine .lift fun e he => ?_
  unfold BinaryOp.operandType at he
  by_cases hlr : left = right
  · rw [if_pos hlr] at he
    cases he
  · rw [if_neg hlr] at he
    exact genuine_of_promote hop hlr he

theorem failsOnly_comparedType {op : Comparison} (hop : Combines n (Enumerated.name op)) :
    FailsOnly (Genuine n) (liftM (op.operandType left right)) := by
  refine .lift fun e he => ?_
  unfold Comparison.operandType at he
  by_cases hlr : left = right
  · rw [if_pos hlr] at he
    cases he
  · rw [if_neg hlr] at he
    exact genuine_of_promote hop hlr he

theorem failsOnly_ensure (ht : t.type? = some ty) {target : Ty} (hc : Converts ty target) :
    FailsOnly (Genuine n) (liftM (t.ensure target)) := by
  obtain ⟨u, hu⟩ := Term.exists_ensure ht hc
  rw [hu]
  exact .pure

/-- An operand is converted without failing. -/
theorem exists_asOperand (ht : t.type? = some ty) (op : UnaryOp) :
    ∃ u, t.asOperand op = .ok u ∧ u.type? = some (op.operandType ty) := by
  obtain ⟨u, hu⟩ := Term.exists_ensure ht (UnaryOp.converts op ty)
  refine ⟨u, ?_, Term.type?_of_ensure hu⟩
  rwa [Term.asOperand, Term.carried_eq_ok.mpr ht, ok_bind]

theorem failsOnly_checkAll {R : Option Ty} {ts : List Term} (h : ∀ t ∈ ts, FailsOnly (Genuine n) (t.check R)) :
    FailsOnly (Genuine n) (Term.checkAll R ts) := by
  induction ts with
  | nil => exact .pure
  | cons t ts ih =>
    rw [List.forall_mem_cons] at h
    rw [Term.checkAll]
    exact h.1.bind fun _ _ _ _ => (ih h.2).bind fun _ _ _ _ => .pure

end Steps

/-! ### Programs -/

/-- The typed form of an expression has a type. -/
theorem Spells.exists_type {c : Node} {e u : Term} {R : Option Ty} {G G' : SymbolTable} (h : Spells c e)
    (hc : c.isA "Expr" = true) (hrun : (e.check R).run G = .ok (u, G')) : ∃ ty, u.type? = some ty :=
  Infers.exists_type (infers_iff.mpr hrun) (by rwa [isA_of_variant h.variant] at hc)

section Children
variable {n c l r : Node} {t left right : Term} {R : Option Ty}

/-- Typing a part fails with errors of the whole only. -/
theorem failsOnly_part (hc : c ∈ n.children) (hn : n.BuiltFrom variants)
    (ih : c.BuiltFrom variants → ∀ R, FailsOnly (Genuine c) (t.check R)) (R : Option Ty) :
    FailsOnly (Genuine n) (t.check R) :=
  (ih (hn.child hc) R).mono fun _ => Genuine.of_child hc

/-- Typing an expression that has to be a whole number, before what comes next. -/
theorem failsOnly_wholeNumber (hs : Spells c t) (hc : c.isA "Expr" = true) (ht : FailsOnly (Genuine n) (t.check R))
    {error : Ty → TypingError} (herror : ∀ found, found ≠ .int → Genuine n (error found)) {next : Term → InferM Term}
    (hnext : ∀ u, FailsOnly (Genuine n) (next u)) :
    FailsOnly (Genuine n) (do
      let u ← (← t.check R).asInt error
      next u) := by
  refine ht.bind fun _ u _ hrun => ?_
  obtain ⟨ty, hty⟩ := hs.exists_type hc hrun
  exact .lift_bind (failsOnly_asInt hty herror) fun u _ => hnext u

/-- Typing two operands and converting both to a common type. -/
theorem failsOnly_operands (hl : Spells l left) (hr : Spells r right) (hlk : l.isA "Expr" = true)
    (hrk : r.isA "Expr" = true) (hleft : FailsOnly (Genuine n) (left.check R))
    (hright : FailsOnly (Genuine n) (right.check R)) {common : Ty → Ty → Except Error Ty}
    (hcommon : ∀ lt rt, FailsOnly (Genuine n) (liftM (common lt rt)))
    (hconverts : ∀ {lt rt target}, common lt rt = .ok target → Converts lt target ∧ Converts rt target)
    (combined : Term → Term → Ty → Term) :
    FailsOnly (Genuine n) (do
      let left ← left.check R
      let right ← right.check R
      let target ← common (← left.carried) (← right.carried)
      let left ← left.ensure target
      let right ← right.ensure target
      pure (combined left right target)) := by
  refine hleft.bind fun _ l' _ hrunl => hright.bind fun _ r' _ hrunr => ?_
  obtain ⟨lt, hlt⟩ := hl.exists_type hlk hrunl
  obtain ⟨rt, hrt⟩ := hr.exists_type hrk hrunr
  refine .ok_bind (Term.carried_eq_ok.mpr hlt) (.ok_bind (Term.carried_eq_ok.mpr hrt) ?_)
  refine .lift_bind (hcommon lt rt) fun target htarget => ?_
  obtain ⟨convertsLeft, convertsRight⟩ := hconverts htarget
  refine .lift_bind (failsOnly_ensure hlt convertsLeft) fun _ _ => ?_
  exact .lift_bind (failsOnly_ensure hrt convertsRight) fun _ _ => .pure

end Children

theorem failsOnly_check {n : Node} {t : Term} (h : Spells n t) (hn : n.BuiltFrom variants) (R : Option Ty) :
    FailsOnly (Genuine n) (t.check R) := by
  induction h generalizing R with
  | @binOp n l r op left right _ kind readsOp readsLeft readsRight _ hl hr ihl ihr =>
    have hleft := failsOnly_part (Node.mem_children_of_getNode readsLeft) hn ihl R
    have hright := failsOnly_part (Node.mem_children_of_getNode readsRight) hn ihr R
    rw [Term.check]
    exact failsOnly_operands hl hr (isA_child hn kind readsLeft rfl) (isA_child hn kind readsRight rfl) hleft hright
      (fun _ _ => failsOnly_operandType (.binOp kind readsOp)) BinaryOp.converts fun l r ty => .binOp op l r (some ty)
  | @cmpOp n l r op left right _ kind readsOp readsLeft readsRight _ hl hr ihl ihr =>
    have hleft := failsOnly_part (Node.mem_children_of_getNode readsLeft) hn ihl R
    have hright := failsOnly_part (Node.mem_children_of_getNode readsRight) hn ihr R
    rw [Term.check]
    exact failsOnly_operands hl hr (isA_child hn kind readsLeft rfl) (isA_child hn kind readsRight rfl) hleft hright
      (fun _ _ => failsOnly_comparedType (.cmpOp kind readsOp)) Comparison.converts fun l r _ => .cmpOp op l r (some .bool)
  | @unOp n c op e _ kind _ readsOperand _ he ih =>
    have hoperand := failsOnly_part (Node.mem_children_of_getNode readsOperand) hn ih R
    rw [Term.check]
    refine hoperand.bind fun _ e' _ hrun => ?_
    obtain ⟨found, hfound⟩ := he.exists_type (isA_child hn kind readsOperand rfl) hrun
    obtain ⟨u, hu, hresult⟩ := exists_asOperand hfound op
    exact .ok_bind hu (.ok_bind (Term.carried_eq_ok.mpr hresult) .pure)
  | var =>
    rw [Term.check]
    exact (failsOnly_lookup _).bind fun _ _ _ _ => .pure
  | element kind _ readsIndex _ hi ih =>
    have hindex := failsOnly_part (Node.mem_children_of_getNode? readsIndex) hn ih R
    rw [Term.check]
    refine (failsOnly_lookup _).bind fun _ declared _ _ => ?_
    refine failsOnly_wholeNumber hi (isA_optionalChild hn kind readsIndex rfl) hindex (fun _ => .nonIntIndex) fun _ => ?_
    exact .lift_bind (failsOnly_elementType declared) fun _ _ => .pure
  | const =>
    rw [Term.check]
    exact .pure
  | @cast n c via e _ kind readsOperand _ he ih =>
    have hoperand := failsOnly_part (Node.mem_children_of_getNode readsOperand) hn ih R
    have hf : via.kind.variant.field? "expr" = some ⟨"expr", .node "Expr"⟩ := by cases via <;> rfl
    rw [Term.check]
    refine hoperand.bind fun _ e' _ hrun => ?_
    obtain ⟨found, hfound⟩ := he.exists_type (isA_child hn kind readsOperand hf) hrun
    exact failsOnly_ensure hfound (.inr (by rw [Conversion.of?_target]; rfl))
  | assign kind _ readsValue _ _ _ _ hv ih =>
    have hval := failsOnly_part (Node.mem_children_of_getNode readsValue) hn ih R
    rw [Term.check]
    refine hval.bind fun _ v' _ hrun => ?_
    obtain ⟨ty, hty⟩ := hv.exists_type (isA_child hn kind readsValue rfl) hrun
    refine .lift_bind (failsOnly_assignedType hty) fun _ _ => ?_
    exact (failsOnly_declare _ _).bind fun _ _ _ _ => .pure
  | store kind readsTarget readsValue targetKind _ readsIndex _ hi hv ihi ihv =>
    have hval := failsOnly_part (Node.mem_children_of_getNode readsValue) hn ihv R
    -- The index stands below the target, which is no term of its own.
    have htarget := Node.mem_children_of_getNode readsTarget
    have hb := hn.child htarget
    have hindex := failsOnly_part htarget hn
      (fun hb => failsOnly_part (Node.mem_children_of_getNode? readsIndex) hb ihi) R
    rw [Term.check]
    refine hval.bind fun _ v' _ hrun => ?_
    obtain ⟨ty, hty⟩ := hv.exists_type (isA_child hn kind readsValue rfl) hrun
    refine .lift_bind (failsOnly_assignedType hty) fun valueType _ => ?_
    refine failsOnly_wholeNumber hi (isA_optionalChild hb targetKind readsIndex rfl) hindex (fun _ => .nonIntIndex)
      fun _ => ?_
    refine .lift_bind (failsOnly_arrayType valueType) fun _ _ => ?_
    exact (failsOnly_declare _ _).bind fun _ _ _ _ => .pure
  | @block n ns body kind readsBody sameLength _ ih =>
    have hbody : ∀ t ∈ body, FailsOnly (Genuine n) (t.check R) := by
      intro t ht
      rw [← List.map_snd_zip (Nat.le_of_eq sameLength.symm)] at ht
      obtain ⟨p, hp, rfl⟩ := List.mem_map.mp ht
      have hmem : p.1 ∈ (Value.nodeList ns).nodes := by
        rw [Node.nodes_nodeList]
        exact (List.of_mem_zip hp).1
      exact failsOnly_part (Node.mem_children_of_get readsBody hmem) hn (ih p hp) R
    rw [Term.check]
    exact (failsOnly_checkAll hbody).bind fun _ _ _ _ => .pure
  | branch kind readsCond readsBody _ _ _ ihc ihb =>
    have hcond := failsOnly_part (Node.mem_children_of_getNode readsCond) hn ihc R
    have hbody := failsOnly_part (Node.mem_children_of_getNode readsBody) hn ihb R
    rw [Term.check]
    exact hcond.bind fun _ _ _ _ => hbody.bind fun _ _ _ _ => .pure
  | branchElse kind readsCond readsBody readsElse _ _ _ ihc ihb ihe =>
    have hcond := failsOnly_part (Node.mem_children_of_getNode readsCond) hn ihc R
    have hbody := failsOnly_part (Node.mem_children_of_getNode readsBody) hn ihb R
    have helse := failsOnly_part (Node.mem_children_of_getNode? readsElse) hn ihe R
    rw [Term.check]
    exact hcond.bind fun _ _ _ _ => hbody.bind fun _ _ _ _ => helse.bind fun _ _ _ _ => .pure
  | loop kind _ readsMin readsMax readsBody hl hu _ ihl ihu ihb =>
    have hmin := failsOnly_part (Node.mem_children_of_getNode readsMin) hn ihl R
    have hmax := failsOnly_part (Node.mem_children_of_getNode readsMax) hn ihu R
    have hbody := failsOnly_part (Node.mem_children_of_getNode readsBody) hn ihb R
    rw [Term.check]
    refine failsOnly_wholeNumber hl (isA_child hn kind readsMin rfl) hmin (fun _ => .nonIntBound (.inl rfl)) fun _ => ?_
    refine failsOnly_wholeNumber hu (isA_child hn kind readsMax rfl) hmax (fun _ => .nonIntBound (.inr rfl)) fun _ => ?_
    exact (failsOnly_declare _ _).bind fun _ _ _ _ => hbody.bind fun _ _ _ _ => .pure
  | ret kind readsValue _ hv ih =>
    have hval := failsOnly_part (Node.mem_children_of_getNode readsValue) hn ih R
    rw [Term.check]
    refine hval.bind fun _ v' _ hrun => ?_
    obtain ⟨found, hfound⟩ := hv.exists_type (isA_child hn kind readsValue rfl) hrun
    refine .ok_bind (Term.carried_eq_ok.mpr hfound) ?_
    by_cases hret : R = some found
    · rw [if_pos hret]
      exact .pure
    · rw [if_neg hret]
      exact .throw (.returnMismatch hret)
  | @funcDef n b name args ms types returnType body kind _ _ _ _ _ readsBody _ ih =>
    have hbody := failsOnly_part (Node.mem_children_of_getNode readsBody) hn ih (some returnType)
    rw [Term.check]
    by_cases harity : args.length = types.length
    · rw [if_neg (not_not_intro harity)]
      exact (failsOnly_declareAll _).bind fun _ _ _ _ => hbody.bind fun _ _ _ _ => .pure
    · rw [if_pos harity]
      refine (FailsOnly.throw (.arityMismatch harity)).bind fun _ _ _ hrun => ?_
      cases hrun

/-- Typing fails with errors of the program only. -/
theorem analyze_genuine {n : Node} (hn : n.BuiltFrom variants) {w w' : Workspace} {e : Error}
    (h : built (Typing.analyze n) w = (.error e, w')) :
    ∃ cause, e = .typing cause ∧ Genuine n cause ∧ (∀ variant, cause ≠ .untyped variant) ∧
      ∀ left right, cause ≠ .operandMismatch "cast" left right := by
  obtain ⟨t, ht⟩ := exists_spells n hn
  have hagrees := analyze_agrees hn ht w
  rw [h] at hagrees
  cases hcheck : (t.check none).run .empty with
  | ok p =>
    rw [hcheck] at hagrees
    exact hagrees.elim
  | error e' =>
    rw [hcheck] at hagrees
    cases hagrees.error_inv
    obtain ⟨cause, rfl, hc⟩ := failsOnly_check ht hn none .empty e hcheck
    exact ⟨cause, rfl, hc, hc.ne_untyped, hc.ne_cast⟩

/-- `x := 2.5 * (true + void)` -/
def emptySum : Node :=
  .mk 6 Kind.assign.variant [
    .node (.mk 0 Kind.ref.variant [.str "x", .absent, .absent]),
    .node (.mk 5 Kind.binOp.variant [.ofMember BinaryOp.mul,
      .node (.mk 1 Kind.floatConst.variant [.float ⟨0x4004000000000000⟩, .absent]),
      .node (.mk 4 Kind.binOp.variant [.ofMember BinaryOp.add,
        .node (.mk 2 Kind.boolConst.variant [.bool true, .absent]),
        .node (.mk 3 Kind.voidConst.variant [.absent]), .absent]), .absent])]

theorem emptySum_builtFrom : emptySum.BuiltFrom variants := by decide

/-- The sum is to blame, not the product around it. -/
theorem analyze_genuine_emptySum : emptySum.BuiltFrom variants ∧ ∃ w',
    built (Typing.analyze emptySum) {} = (.error (.typing (.operandMismatch "Add" .bool .void)), w') ∧
      ∃ cause, Error.typing (.operandMismatch "Add" .bool .void) = .typing cause ∧ Genuine emptySum cause ∧
        (∀ variant, cause ≠ .untyped variant) ∧ ∀ left right, cause ≠ .operandMismatch "cast" left right := by
  have hspells : Spells emptySum (.assign "x" none (.binOp .mul (.const (.float ⟨0x4004000000000000⟩) none)
      (.binOp .add (.const (.bool true) none) (.const .void none) none) none)) :=
    .assign rfl rfl rfl rfl rfl rfl rfl
      (.binOp rfl rfl rfl rfl rfl (.const rfl rfl rfl)
        (.binOp rfl rfl rfl rfl rfl (.const rfl rfl rfl) (.const rfl trivial rfl)))
  have hrun := Agrees.error_inv (analyze_agrees emptySum_builtFrom hspells {})
  have hbuilt : built (Typing.analyze emptySum) {} =
      (.error (.typing (.operandMismatch "Add" .bool .void)), (built (Typing.analyze emptySum) {}).2) :=
    Prod.ext hrun rfl
  exact ⟨emptySum_builtFrom, _, hbuilt, analyze_genuine emptySum_builtFrom hbuilt⟩

end TypedTree.Expr
