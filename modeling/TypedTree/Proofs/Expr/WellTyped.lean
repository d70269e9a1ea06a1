import TypedTree.Proofs.Expr.Judgement

/-! The rules of typing, and that typing a term gives a term that follows them. The rules look names up in one table,
    the table at the end: a name keeps its type once it is declared, so what a rule found in the table of its moment
    is still there. -/

namespace TypedTree.Expr

/-- Whenever the action ends, the table has grown, and its value satisfies `Q` in every table that grows further. -/
def Establishes {α : Type} (x : InferM α) (Q : SymbolTable → α → Prop) : Prop :=
  ∀ G a G', x.run G = .ok (a, G') → G'.Extends G ∧ ∀ F : SymbolTable, F.Extends G' → Q F a

/-! ### The rules -/

/-- The term follows the rules of typing, in a function with the given return type if in any, where names have the
    types of the table. -/
inductive WellTyped (G : SymbolTable) : Option Ty → Term → Prop
  | binOp {R op left right ty} (leftTyped : WellTyped G R left) (rightTyped : WellTyped G R right)
      (leftType : left.type? = some ty) (rightType : right.type? = some ty)
      (numeric : op.isArithmetic = true → ty ≠ .bool) : WellTyped G R (.binOp op left right (some ty))
  | cmpOp {R op left right ty} (leftTyped : WellTyped G R left) (rightTyped : WellTyped G R right)
      (leftType : left.type? = some ty) (rightType : right.type? = some ty) :
      WellTyped G R (.cmpOp op left right (some .bool))
  | neg {R e ty} (typed : WellTyped G R e) (operandType : e.type? = some ty) (numeric : ty ≠ .bool) :
      WellTyped G R (.unOp .neg e (some ty))
  | not {R e} (typed : WellTyped G R e) (operandType : e.type? = some .bool) :
      WellTyped G R (.unOp .not e (some .bool))
  | var {R name ty} (declared : G.get? name = some ty) : WellTyped G R (.var name (some ty))
  | element {R name index ty} (indexTyped : WellTyped G R index) (indexType : index.type? = some .int)
      (declared : G.get? name = some ty) (array : ty.isArray = true) :
      WellTyped G R (.element name index (some ty.toScalar))
  | const {R c} : WellTyped G R (.const c (some c.type))
  | cast {R via e ty} (typed : WellTyped G R e) (operandType : e.type? = some ty) (needed : ty ≠ via.target) :
      WellTyped G R (.cast via e (some via.target))
  | assign {R name val ty} (valTyped : WellTyped G R val) (valType : val.type? = some ty)
      (scalar : ty.isArray = false) (declared : G.get? name = some ty) : WellTyped G R (.assign name (some ty) val)
  | store {R name index val ty array} (indexTyped : WellTyped G R index) (indexType : index.type? = some .int)
      (valTyped : WellTyped G R val) (valType : val.type? = some ty) (scalar : ty.isArray = false)
      (arrayOf : ty.toArray? = some array) (declared : G.get? name = some array) :
      WellTyped G R (.store name index (some array) val)
  | block {R body} (typed : ∀ t ∈ body, WellTyped G R t) : WellTyped G R (.block body)
  | branch {R cond body} (condTyped : WellTyped G R cond) (bodyTyped : WellTyped G R body) :
      WellTyped G R (.branch cond body)
  | branchElse {R cond body elseBody} (condTyped : WellTyped G R cond) (bodyTyped : WellTyped G R body)
      (elseTyped : WellTyped G R elseBody) : WellTyped G R (.branchElse cond body elseBody)
  | loop {R counter min max body} (minTyped : WellTyped G R min) (minType : min.type? = some .int)
      (maxTyped : WellTyped G R max) (maxType : max.type? = some .int) (declared : G.get? counter = some .int)
      (bodyTyped : WellTyped G R body) : WellTyped G R (.loop counter min max body)
  | ret {val ty} (typed : WellTyped G (some ty) val) (valType : val.type? = some ty) :
      WellTyped G (some ty) (.ret val (some ty))
  | funcDef {R name args types returnType body} (arity : args.length = types.length)
      (declared : ∀ p ∈ args.zip types, G.get? p.1 = some p.2) (bodyTyped : WellTyped G (some returnType) body) :
      WellTyped G R (.funcDef name args types returnType body)

/-! ### Steps of the rules -/

theorem Typing.promote_ne_bool {label : String} {l r target : Ty} (h : Typing.promote label l r = .ok target) :
    target ≠ .bool := by
  unfold Typing.promote at h
  split at h
  · cases h
    exact Ty.noConfusion
  · split at h
    · cases h
      exact Ty.noConfusion
    · cases h

theorem operandType_ne_bool {op : BinaryOp} {l r target : Ty} (h : op.operandType l r = .ok target)
    (harith : op.isArithmetic = true) : target ≠ .bool := by
  unfold BinaryOp.operandType at h
  by_cases hlr : l = r
  · rw [if_pos hlr] at h
    by_cases hb : l = .bool
    · rw [if_pos ⟨hb, harith⟩] at h
      cases h
      exact Ty.noConfusion
    · rw [if_neg fun hc => hb hc.1] at h
      cases h
      exact hb
  · rw [if_neg hlr] at h
    exact Typing.promote_ne_bool h

/-- A conversion is put in where it is needed only. -/
theorem WellTyped.ensure {F : SymbolTable} {R : Option Ty} {t u : Term} {target : Ty} (h : WellTyped F R t)
    (hu : t.ensure target = .ok u) : WellTyped F R u := by
  obtain ⟨found, hfound, ⟨-, rfl⟩ | ⟨via, hne, rfl, rfl⟩⟩ := Term.ensure_inv hu
  · exact h
  · exact .cast h hfound hne

theorem WellTyped.unOp {F : SymbolTable} {R : Option Ty} {op : UnaryOp} {e : Term} {found : Ty} (h : WellTyped F R e)
    (hop : e.type? = some (op.operandType found)) : WellTyped F R (.unOp op e (some (op.operandType found))) := by
  cases op with
  | neg =>
    refine .neg h hop ?_
    by_cases hb : found = .bool <;> simp [UnaryOp.operandType, hb]
  | not => exact .not h hop

/-! ### Soundness -/

/-- The typed form of a term follows the rules, in the table that typing ends with and in every later one. -/
theorem Infers.wellTyped {R : Option Ty} {F G G' : SymbolTable} {t u : Term} (h : Infers R G t u G') (hF : F.Extends G') :
    WellTyped F R u := by
  -- The steps behind a premise only add names, so the premise holds in the table at the end as well.
  induction h with
  | binOp _ hr _ _ operands hl' hr' ihl ihr =>
    exact .binOp ((ihl (hF.trans hr.grows)).ensure hl') ((ihr hF).ensure hr') (Term.type?_of_ensure hl')
      (Term.type?_of_ensure hr') (operandType_ne_bool operands)
  | cmpOp _ hr _ _ _ hl' hr' ihl ihr =>
    exact .cmpOp ((ihl (hF.trans hr.grows)).ensure hl') ((ihr hF).ensure hr') (Term.type?_of_ensure hl')
      (Term.type?_of_ensure hr')
  | unOp _ _ hv' ih => exact ((ih hF).ensure hv').unOp (Term.type?_of_ensure hv')
  | var looksUp => exact .var (hF _ _ looksUp)
  | element looksUp hi hint harray ih => exact .element (ih hF) hint (hF _ _ (hi.grows _ _ looksUp)) harray
  | const => exact .const
  | cast _ hv' ih => exact (ih hF).ensure hv'
  | assign _ htype hscalar declares ih =>
    obtain ⟨hext, hget⟩ := SymbolTable.declare_extends declares
    exact .assign (ih (hF.trans hext)) htype hscalar (hF _ _ hget)
  | store _ htype hscalar hi hint harray declares ihv ihi =>
    obtain ⟨hext, hget⟩ := SymbolTable.declare_extends declares
    have hK := hF.trans hext
    exact .store (ihi hK) hint (ihv (hK.trans hi.grows)) htype hscalar harray (hF _ _ hget)
  | done => exact .block (by simp)
  | next _ hs ih ihs =>
    cases ihs hF with
    | block rest => exact .block (List.forall_mem_cons.mpr ⟨ih (hF.trans hs.grows), rest⟩)
  | branch _ hb ihc ihb => exact .branch (ihc (hF.trans hb.grows)) (ihb hF)
  | branchElse _ hb he ihc ihb ihe =>
    have hK := hF.trans he.grows
    exact .branchElse (ihc (hK.trans hb.grows)) (ihb hK) (ihe hF)
  | loop _ hlint hu huint declares hb ihl ihu ihb =>
    obtain ⟨hext, hget⟩ := SymbolTable.declare_extends declares
    have hL := hF.trans hb.grows
    have hK := hL.trans hext
    exact .loop (ihl (hK.trans hu.grows)) hlint (ihu hK) huint (hL _ _ hget) (ihb hF)
  | ret _ htype ih => exact .ret (ih hF) htype
  | funcDef arity declares hb ih =>
    have hH := hF.trans hb.grows
    exact .funcDef arity (fun p hp => hH _ _ ((run_declareAll_spec declares).2 p hp)) (ih hF)

theorem check_wellTyped (t : Term) (R : Option Ty) : Establishes (t.check R) fun F t => WellTyped F R t := by
  intro G u G' h
  have typing := infers_of_run t R G u G' h
  exact ⟨typing.grows, fun F hF => typing.wellTyped hF⟩

end TypedTree.Expr
