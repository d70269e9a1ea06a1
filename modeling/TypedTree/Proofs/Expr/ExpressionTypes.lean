import TypedTree.Proofs.Expr.Judgement
import TypedTree.Proofs.Expr.Soundness

/-! The types of expressions, by a function that computes nothing but the type: no conversions, no trees, no errors.
    Typing an expression, with any names declared and inside any function, succeeds just when the function is defined.
    The typed expression then has the type that the function gives, and no name has been declared. -/

namespace TypedTree

/-! ### The type of an expression -/

/-- The one of two different types that both are converted to: `float` before `int`, and none if neither is a number. -/
def Ty.wider? (left right : Ty) : Option Ty :=
  if left = .float ∨ right = .float then some .float
  else if left = .int ∨ right = .int then some .int
  else none

/-- Values of one type keep it, but truth values are whole numbers under an arithmetic operator. -/
def BinaryOp.resultType? (op : BinaryOp) (left right : Ty) : Option Ty :=
  if left = right then some (if left = .bool ∧ op.isArithmetic then .int else left) else left.wider? right

def UnaryOp.resultType : UnaryOp → Ty → Ty
  | .neg, .bool => .int
  | .neg, ty => ty
  | .not, _ => .bool

/-- Values of one type are compared, and values of two types if one of these is a number. -/
def Comparison.resultType? (left right : Ty) : Option Ty :=
  if left = right ∨ left = .float ∨ right = .float ∨ left = .int ∨ right = .int then some .bool else none

/-- The type of the elements of an array; there is none for other types. -/
def Ty.elements? : Ty → Option Ty
  | .intArray => some .int
  | .floatArray => some .float
  | .boolArray => some .bool
  | .int | .float | .bool | .void => none

namespace Expr

/-- The type of an expression, where names have the types of `G` and the function around it, if any, is to return `R`.
    Statements have none. -/
def Term.valueType? (G : SymbolTable) (R : Option Ty) : Term → Option Ty
  | .binOp op left right _ => do op.resultType? (← left.valueType? G R) (← right.valueType? G R)
  | .cmpOp _ left right _ => do Comparison.resultType? (← left.valueType? G R) (← right.valueType? G R)
  | .unOp op e _ => do some (op.resultType (← e.valueType? G R))
  | .var name _ => G.get? name
  | .element name index _ => do
    let array ← G.get? name
    if (← index.valueType? G R) = .int then array.elements? else none
  | .const c _ => some c.type
  | .cast via e _ => do
    let _ ← e.valueType? G R
    some via.target
  | .ret val _ => do
    let ty ← val.valueType? G R
    if R = some ty then some ty else none
  | .assign .. | .store .. | .block _ | .branch .. | .branchElse .. | .loop .. | .funcDef .. => none

/-! ### Types that the rules convert to -/

section Targets
variable {left right target : Ty}

theorem Typing.promote_eq_ok {label : String} :
    promote label left right = .ok target ↔ left.wider? right = some target := by
  unfold promote Ty.wider?
  split_ifs <;> simp [pure, Except.pure]

theorem operandType_eq_ok {op : BinaryOp} :
    op.operandType left right = .ok target ↔ op.resultType? left right = some target := by
  unfold BinaryOp.operandType BinaryOp.resultType?
  by_cases h : left = right
  · rw [if_pos h, if_pos h]
    simp [pure, Except.pure]
  · rw [if_neg h, if_neg h]
    exact Typing.promote_eq_ok

theorem exists_wider?_iff : (∃ target, left.wider? right = some target) ↔
    left = .float ∨ right = .float ∨ left = .int ∨ right = .int := by
  unfold Ty.wider?
  split_ifs <;> simp <;> tauto

theorem exists_operandType_iff {op : Comparison} :
    (∃ target, op.operandType left right = .ok target) ↔ Comparison.resultType? left right = some .bool := by
  unfold Comparison.operandType Comparison.resultType?
  by_cases h : left = right
  · rw [if_pos h, if_pos (.inl h)]
    exact iff_of_true ⟨left, rfl⟩ rfl
  · rw [if_neg h]
    simp only [Typing.promote_eq_ok, exists_wider?_iff]
    constructor
    · exact fun hn => if_pos (.inr hn)
    · intro hs
      split_ifs at hs with hn
      exact hn.resolve_left h

/-- Values of the type can be converted to the target, if they have to be. -/
def Converts (found target : Ty) : Prop := found = target ∨ (Conversion.of? target).isSome = true

theorem converts_of_wider? (h : left.wider? right = some target) (found : Ty) : Converts found target := by
  unfold Ty.wider? at h
  split_ifs at h <;> cases h <;> exact .inr rfl

theorem BinaryOp.converts {op : BinaryOp} (h : op.operandType left right = .ok target) :
    Converts left target ∧ Converts right target := by
  rw [operandType_eq_ok, BinaryOp.resultType?] at h
  by_cases hlr : left = right
  · rw [if_pos hlr] at h
    split_ifs at h <;> cases h
    · exact ⟨.inr rfl, .inr rfl⟩
    · exact ⟨.inl rfl, .inl hlr.symm⟩
  · rw [if_neg hlr] at h
    exact ⟨converts_of_wider? h _, converts_of_wider? h _⟩

theorem Comparison.converts {op : Comparison} (h : op.operandType left right = .ok target) :
    Converts left target ∧ Converts right target := by
  unfold Comparison.operandType at h
  by_cases hlr : left = right
  · rw [if_pos hlr] at h
    cases h
    exact ⟨.inl rfl, .inl hlr.symm⟩
  · rw [if_neg hlr, Typing.promote_eq_ok] at h
    exact ⟨converts_of_wider? h _, converts_of_wider? h _⟩

theorem Term.exists_ensure {t : Term} {found : Ty} (h : t.type? = some found) (hc : Converts found target) :
    ∃ u, t.ensure target = .ok u := by
  rw [ensure, carried_eq_ok.mpr h, ok_bind]
  by_cases hf : found = target
  · exact ⟨t, if_pos hf⟩
  · obtain ⟨via, hvia⟩ := Option.isSome_iff_exists.mp (hc.resolve_left hf)
    rw [if_neg hf, hvia]
    exact ⟨_, rfl⟩

theorem Conversion.of?_target (via : Conversion) : of? via.target = some via := by
  cases via <;> rfl

theorem UnaryOp.operandType_eq (op : UnaryOp) (found : Ty) : op.operandType found = op.resultType found := by
  cases op <;> cases found <;> rfl

theorem UnaryOp.converts (op : UnaryOp) (found : Ty) : Converts found (op.operandType found) := by
  cases op with
  | neg =>
    by_cases hb : found = .bool
    · exact .inr (by rw [UnaryOp.operandType, if_pos hb]; rfl)
    · exact .inl (if_neg hb).symm
  | not => exact .inr rfl

theorem elements?_eq_some {array ty : Ty} : array.elements? = some ty ↔ array.isArray = true ∧ array.toScalar = ty := by
  cases array <;> simp [Ty.elements?, Ty.isArray, Ty.toScalar]

end Targets

/-! ### Typing and the function -/

variable {R : Option Ty} {G G' : SymbolTable} {t u : Term} {ty : Ty}

/-- Where the function is defined, typing succeeds. -/
theorem Term.exists_infers (h : t.valueType? G R = some ty) : ∃ u, Infers R G t u G ∧ u.type? = some ty := by
  induction t generalizing ty with
  | binOp op left right _ ihl ihr =>
    rw [valueType?] at h
    obtain ⟨lt, hl, h⟩ := Option.bind_eq_some_iff.mp h
    obtain ⟨rt, hr, h⟩ := Option.bind_eq_some_iff.mp h
    obtain ⟨l, hl, hlt⟩ := ihl hl
    obtain ⟨r, hr, hrt⟩ := ihr hr
    have operands := operandType_eq_ok.mpr h
    obtain ⟨convertsLeft, convertsRight⟩ := BinaryOp.converts operands
    obtain ⟨l', hl'⟩ := exists_ensure hlt convertsLeft
    obtain ⟨r', hr'⟩ := exists_ensure hrt convertsRight
    exact ⟨_, .binOp hl hr hlt hrt operands hl' hr', rfl⟩
  | cmpOp op left right _ ihl ihr =>
    rw [valueType?] at h
    obtain ⟨lt, hl, h⟩ := Option.bind_eq_some_iff.mp h
    obtain ⟨rt, hr, h⟩ := Option.bind_eq_some_iff.mp h
    obtain ⟨l, hl, hlt⟩ := ihl hl
    obtain ⟨r, hr, hrt⟩ := ihr hr
    have hbool : ty = .bool := by
      unfold Comparison.resultType? at h
      split_ifs at h
      exact (Option.some.inj h).symm
    subst hbool
    obtain ⟨target, operands⟩ : ∃ target, op.operandType lt rt = .ok target := exists_operandType_iff.mpr h
    obtain ⟨convertsLeft, convertsRight⟩ := Comparison.converts operands
    obtain ⟨l', hl'⟩ := exists_ensure hlt convertsLeft
    obtain ⟨r', hr'⟩ := exists_ensure hrt convertsRight
    exact ⟨_, .cmpOp hl hr hlt hrt operands hl' hr', rfl⟩
  | unOp op e _ ih =>
    rw [valueType?] at h
    obtain ⟨found, he, h⟩ := Option.bind_eq_some_iff.mp h
    cases h
    obtain ⟨v, hv, hfound⟩ := ih he
    obtain ⟨v', hv'⟩ := exists_ensure hfound (UnaryOp.converts op found)
    exact ⟨_, .unOp hv hfound hv', congrArg some (UnaryOp.operandType_eq op found)⟩
  | var name _ =>
    rw [valueType?] at h
    exact ⟨_, .var h, rfl⟩
  | element name index _ ih =>
    rw [valueType?] at h
    obtain ⟨array, hd, h⟩ := Option.bind_eq_some_iff.mp h
    obtain ⟨it, hi, h⟩ := Option.bind_eq_some_iff.mp h
    split_ifs at h with hint
    subst hint
    obtain ⟨i, hi, hint⟩ := ih hi
    obtain ⟨harray, rfl⟩ := elements?_eq_some.mp h
    exact ⟨_, .element hd hi hint harray, rfl⟩
  | const c _ =>
    rw [valueType?] at h
    cases h
    exact ⟨_, .const, rfl⟩
  | cast via e _ ih =>
    rw [valueType?] at h
    obtain ⟨found, he, h⟩ := Option.bind_eq_some_iff.mp h
    cases h
    obtain ⟨v, hv, hfound⟩ := ih he
    have converts : Converts found via.target := .inr (by rw [Conversion.of?_target]; rfl)
    obtain ⟨v', hv'⟩ := exists_ensure hfound converts
    exact ⟨v', .cast hv hv', type?_of_ensure hv'⟩
  | ret val _ ih =>
    rw [valueType?] at h
    obtain ⟨found, hv, h⟩ := Option.bind_eq_some_iff.mp h
    split_ifs at h with hret
    cases h
    obtain ⟨v, hv, hfound⟩ := ih hv
    subst hret
    exact ⟨_, .ret hv hfound, rfl⟩
  | _ => rw [valueType?] at h; cases h

/-- A typing that ends with a type ends with the one of the function, and declares nothing. -/
theorem Infers.valueType (h : Infers R G t u G') (hty : u.type? = some ty) : G' = G ∧ t.valueType? G R = some ty := by
  induction h generalizing ty with
  | binOp _ _ hlt hrt operands _ _ ihl ihr =>
    cases hty
    obtain ⟨rfl, hl⟩ := ihl hlt
    obtain ⟨rfl, hr⟩ := ihr hrt
    refine ⟨rfl, ?_⟩
    rw [Term.valueType?, hl, hr]
    exact operandType_eq_ok.mp operands
  | cmpOp _ _ hlt hrt operands _ _ ihl ihr =>
    cases hty
    obtain ⟨rfl, hl⟩ := ihl hlt
    obtain ⟨rfl, hr⟩ := ihr hrt
    refine ⟨rfl, ?_⟩
    rw [Term.valueType?, hl, hr]
    exact exists_operandType_iff.mp ⟨_, operands⟩
  | unOp _ hfound _ ih =>
    cases hty
    obtain ⟨rfl, he⟩ := ih hfound
    refine ⟨rfl, ?_⟩
    rw [Term.valueType?, he, UnaryOp.operandType_eq]
    rfl
  | var looksUp =>
    cases hty
    exact ⟨rfl, looksUp⟩
  | element looksUp _ hint harray ih =>
    cases hty
    obtain ⟨rfl, hi⟩ := ih hint
    refine ⟨rfl, ?_⟩
    rw [Term.valueType?, looksUp, hi]
    exact elements?_eq_some.mpr ⟨harray, rfl⟩
  | const =>
    cases hty
    exact ⟨rfl, rfl⟩
  | cast _ hv' ih =>
    obtain ⟨found, hfound, -⟩ := Term.ensure_inv hv'
    obtain ⟨rfl, he⟩ := ih hfound
    refine ⟨rfl, ?_⟩
    rw [Term.valueType?, he]
    exact (Term.type?_of_ensure hv').symm.trans hty
  | ret _ hfound ih =>
    cases hty
    obtain ⟨rfl, hv⟩ := ih hfound
    refine ⟨rfl, ?_⟩
    rw [Term.valueType?, hv]
    exact if_pos rfl
  | _ => cases hty

/-- A typed expression has a type. -/
theorem Infers.exists_type (h : Infers R G t u G') (he : t.kind.variant.isA "Expr" = true) : ∃ ty, u.type? = some ty := by
  cases h with
  | cast _ hv' => exact ⟨_, Term.type?_of_ensure hv'⟩
  | binOp | cmpOp | unOp | var | element | const | ret => exact ⟨_, rfl⟩
  | _ => cases he

/-! ### Expressions -/

/-- Typing an expression succeeds where the function is defined, with the type it gives and with the table it was given,
    and fails elsewhere. The return type is only read, so there is none to be left behind. -/
theorem check_valueType {e : Node} (he : e.BuiltFrom variants) (hexpr : e.isA "Expr" = true) :
    (∃ t, Spells e t) ∧ ∀ t, Spells e t → ∀ (G : SymbolTable) (R : Option Ty) (w : Workspace),
      match t.valueType? G R with
      | some ty => ∃ e' w', outcome (Typing.check R e) G w = (.ok (e', G), w') ∧ typeOf e' = .ok (some ty)
      | none => ∃ error w', outcome (Typing.check R e) G w = (.error error, w') := by
  refine ⟨exists_spells e he, fun t ht G R w => ?_⟩
  have hagrees := check_refines ht he R G w
  cases hτ : t.valueType? G R with
  | some ty =>
    obtain ⟨u, hu, hty⟩ := Term.exists_infers hτ
    rw [hu.run] at hagrees
    obtain ⟨⟨e', G'⟩, hrun, hrw, rfl⟩ := hagrees.ok_inv
    exact ⟨e', _, Prod.ext hrun rfl, hty ▸ hrw.spells.typeOf (hrw.expr hexpr)⟩
  | none =>
    cases hcheck : (t.check R).run G with
    | error error =>
      rw [hcheck] at hagrees
      exact ⟨error, _, Prod.ext hagrees.error_inv rfl⟩
    | ok p =>
      have hinfers : Infers R G t p.1 p.2 := infers_iff.mpr hcheck
      obtain ⟨ty, hty⟩ := hinfers.exists_type (by rwa [isA_of_variant ht.variant] at hexpr)
      cases hτ.symm.trans (hinfers.valueType hty).2

/-- `return level[-true] < int(2.5)` -/
def belowThreshold : Node :=
  .mk 6 Kind.ret.variant [
    .node (.mk 5 Kind.cmpOp.variant [.ofMember Comparison.lt,
      .node (.mk 2 Kind.ref.variant [.str "level",
        .node (.mk 1 Kind.unOp.variant [.ofMember UnaryOp.neg,
          .node (.mk 0 Kind.boolConst.variant [.bool true, .absent]), .absent]), .absent]),
      .node (.mk 4 Kind.castToInt.variant [
        .node (.mk 3 Kind.floatConst.variant [.float ⟨0x4004000000000000⟩, .absent]), .absent]), .absent]), .absent]

def belowThresholdTerm : Term :=
  .ret (.cmpOp .lt (.element "level" (.unOp .neg (.const (.bool true) none) none) none)
    (.cast .toInt (.const (.float ⟨0x4004000000000000⟩) none) none) none) none

/-- One name, for an array of doubles. -/
def levels : SymbolTable := ⟨OrderedMap.empty.insertNew "level" .floatArray⟩

theorem belowThreshold_builtFrom : belowThreshold.BuiltFrom variants := by decide

/-- The return is typed where a truth value is to be returned, and nowhere else. -/
theorem check_valueType_belowThreshold : belowThreshold.BuiltFrom variants ∧ belowThreshold.isA "Expr" = true ∧
    (∃ e' w', outcome (Typing.check (some .bool) belowThreshold) levels {} = (.ok (e', levels), w') ∧
      typeOf e' = .ok (some .bool)) ∧
    ∀ R, R ≠ some .bool → ∃ error w', outcome (Typing.check R belowThreshold) levels {} = (.error error, w') := by
  have hspells : Spells belowThreshold belowThresholdTerm :=
    .ret rfl rfl rfl (.cmpOp rfl rfl rfl rfl rfl
      (.element rfl rfl rfl rfl (.unOp rfl rfl rfl rfl (.const rfl rfl rfl)))
      (.cast rfl rfl rfl (.const rfl rfl rfl)))
  have hall := (check_valueType belowThreshold_builtFrom rfl).2 belowThresholdTerm hspells levels
  refine ⟨belowThreshold_builtFrom, rfl, hall (some .bool) {}, fun R hR => ?_⟩
  have hnone : belowThresholdTerm.valueType? levels R = none := by
    show (if R = some Ty.bool then some Ty.bool else none) = none
    exact if_neg hR
  have hfails := hall R {}
  rw [hnone] at hfails
  exact hfails

end Expr
end TypedTree
