import TypedTree.Proofs.Expr.Inference

/-! Typing as a judgement. `Infers R G t u G'` says that the term `t`, in a function with the return type `R` if in any
    and after the declarations of `G`, is typed as `u`, with the declarations of `G'` afterwards. The judgement holds
    just when typing the term succeeds so; what a successful typing keeps is then shown by induction over it. A block
    is typed statement by statement, and its two rules follow the list. -/

namespace TypedTree.Expr

/-! ### Tables that grow -/

/-- Every name declared in `G` has the same type in `F`. -/
def SymbolTable.Extends (F G : SymbolTable) : Prop := ∀ name ty, G.get? name = some ty → F.get? name = some ty

namespace SymbolTable
variable {F G H : SymbolTable}

theorem Extends.refl (G : SymbolTable) : G.Extends G := fun _ _ h => h

theorem Extends.trans (hF : F.Extends G) (hG : G.Extends H) : F.Extends H := fun name ty h =>
  hF name ty (hG name ty h)

/-- A declaration finds the name with the type, and leaves the table as it is, or adds a name that is new. -/
theorem declare_inv {name : String} {ty : Ty} (h : G.declare name ty = .ok F) :
    G.get? name = some ty ∧ F = G ∨ G.get? name = none ∧ F = ⟨G.names.insertNew name ty⟩ := by
  unfold declare at h
  cases hg : G.get? name with
  | some declared =>
    rw [hg] at h
    by_cases hty : declared = ty
    · simp only [if_pos hty] at h
      cases h
      exact .inl ⟨congrArg some hty, rfl⟩
    · simp only [if_neg hty] at h
      cases h
  | none =>
    rw [hg] at h
    cases h
    exact .inr ⟨rfl, rfl⟩

/-- Declaring a name keeps the names declared before, and the name has the type afterwards. -/
theorem declare_extends {name : String} {ty : Ty} (h : G.declare name ty = .ok F) :
    F.Extends G ∧ F.get? name = some ty := by
  obtain ⟨hfound, rfl⟩ | ⟨hnew, rfl⟩ := declare_inv h
  · exact ⟨.refl _, hfound⟩
  · refine ⟨fun other found ho => ?_, ?_⟩
    · rw [get?, OrderedMap.get?_insertNew]
      by_cases he : other = name
      · rw [he, hnew] at ho
        cases ho
      · rw [if_neg fun hc => he hc.2]
        exact ho
    · rw [get?, OrderedMap.get?_insertNew, if_pos ⟨OrderedMap.get?_eq_none_iff.mp hnew, rfl⟩]

end SymbolTable

/-! ### Runs that succeed -/

section Runs
variable {α β : Type}

theorem run_bind_eq_ok {x : InferM α} {f : α → InferM β} {G : SymbolTable} {p : β × SymbolTable} :
    (x >>= f).run G = .ok p ↔ ∃ a G', x.run G = .ok (a, G') ∧ (f a).run G' = .ok p := by
  rw [StateT.run_bind, bind_eq_ok]
  exact Prod.exists

theorem run_lift_bind_eq_ok {x : Except Error α} {f : α → InferM β} {G : SymbolTable} {p : β × SymbolTable} :
    (liftM x >>= f).run G = .ok p ↔ ∃ a, x = .ok a ∧ (f a).run G = .ok p := by
  cases x with
  | error e =>
    constructor
    · intro h
      cases h
    · rintro ⟨_, h, _⟩
      cases h
  | ok a =>
    constructor
    · exact fun h => ⟨a, rfl, h⟩
    · rintro ⟨_, h, hf⟩
      cases h
      exact hf

theorem run_bind {x : InferM α} {f : α → InferM β} {G G' : SymbolTable} {a : α} (h : x.run G = .ok (a, G')) :
    (x >>= f).run G = (f a).run G' := by
  rw [StateT.run_bind, h]
  rfl

@[simp] theorem liftM_infer_ok (a : α) : (liftM (Except.ok a : Except Error α) : InferM α) = pure a := rfl

theorem run_lookup {G G' : SymbolTable} {name : String} {ty : Ty} :
    (lookup name).run G = .ok (ty, G') ↔ G.get? name = some ty ∧ G' = G := by
  simp only [lookup, StateT.run_bind, StateT.run_get, pure_bind]
  cases G.get? name with
  | none =>
    constructor
    · intro h
      cases h
    · rintro ⟨h, _⟩
      cases h
  | some found =>
    constructor
    · intro h
      cases h
      exact ⟨rfl, rfl⟩
    · rintro ⟨h, rfl⟩
      cases h
      rfl

theorem run_declare {G G' : SymbolTable} {name : String} {ty : Ty} :
    (declare name ty).run G = .ok ((), G') ↔ G.declare name ty = .ok G' := by
  simp only [declare, StateT.run_bind, StateT.run_get, pure_bind]
  cases G.declare name ty with
  | error e =>
    constructor
    · intro h
      cases h
    · intro h
      cases h
  | ok H =>
    constructor
    · intro h
      cases h
      rfl
    · intro h
      cases h
      rfl

end Runs

/-! ### Steps of the rules -/

namespace Term

theorem type?_of_carried {t : Term} {ty : Ty} (h : t.carried = .ok ty) : t.type? = some ty := by
  unfold carried at h
  cases ht : t.type? with
  | none => rw [ht] at h; cases h
  | some found => rw [ht] at h; cases h; rfl

theorem carried_eq_ok {t : Term} {ty : Ty} : t.carried = .ok ty ↔ t.type? = some ty := by
  refine ⟨type?_of_carried, fun h => ?_⟩
  rw [carried, h]
  rfl

/-- A term that has the target type is left alone, and any other one is converted. -/
theorem ensure_inv {t u : Term} {target : Ty} (h : t.ensure target = .ok u) : ∃ found, t.type? = some found ∧
    (found = target ∧ u = t ∨
      ∃ via : Conversion, found ≠ via.target ∧ target = via.target ∧ u = .cast via t (some target)) := by
  obtain ⟨found, hc, h⟩ := bind_eq_ok.mp h
  refine ⟨found, type?_of_carried hc, ?_⟩
  by_cases hf : found = target
  · rw [if_pos hf] at h
    cases h
    exact .inl ⟨hf, rfl⟩
  · rw [if_neg hf] at h
    cases hvia : Conversion.of? target with
    | none => rw [hvia] at h; cases h
    | some via =>
      rw [hvia] at h
      cases h
      obtain rfl := Conversion.target_of_of? hvia
      exact .inr ⟨via, hf, rfl, rfl⟩

theorem type?_of_ensure {t u : Term} {target : Ty} (h : t.ensure target = .ok u) : u.type? = some target := by
  obtain ⟨found, hfound, ⟨rfl, rfl⟩ | ⟨via, -, -, rfl⟩⟩ := ensure_inv h
  · exact hfound
  · rfl

theorem asInt_spec {error : Ty → TypingError} {t u : Term} (h : t.asInt error = .ok u) :
    u = t ∧ t.type? = some .int := by
  obtain ⟨found, hc, h⟩ := bind_eq_ok.mp h
  by_cases hf : found = .int
  · rw [if_pos hf] at h
    cases h
    exact ⟨rfl, hf ▸ type?_of_carried hc⟩
  · rw [if_neg hf] at h
    cases h

theorem assignedType_spec {t : Term} {ty : Ty} (h : t.assignedType = .ok ty) :
    t.type? = some ty ∧ ty.isArray = false := by
  obtain ⟨found, hc, h⟩ := bind_eq_ok.mp h
  by_cases hf : found.isArray = true
  · rw [if_pos hf] at h
    cases h
  · rw [if_neg hf] at h
    cases h
    exact ⟨type?_of_carried hc, by simpa using hf⟩

end Term

theorem referenceType_spec {declared result : Ty} (h : Typing.referenceType declared true = .ok result) :
    declared.isArray = true ∧ result = declared.toScalar := by
  unfold Typing.referenceType at h
  by_cases ha : declared.isArray = true
  · rw [if_pos rfl, if_pos ha] at h
    cases h
    exact ⟨ha, rfl⟩
  · rw [if_pos rfl, if_neg ha] at h
    cases h

theorem targetType_spec {valueType declared : Ty} (h : Typing.targetType valueType true = .ok declared) :
    valueType.toArray? = some declared := by
  unfold Typing.targetType at h
  rw [if_pos rfl] at h
  cases ha : valueType.toArray? with
  | none => rw [ha] at h; cases h
  | some array => rw [ha] at h; cases h; rfl

/-! ### The rules -/

inductive Infers : Option Ty → SymbolTable → Term → Term → SymbolTable → Prop
  | binOp {R G H G' op left right l r lt rt target l' r' ty} (typesLeft : Infers R G left l H)
      (typesRight : Infers R H right r G') (leftType : l.type? = some lt) (rightType : r.type? = some rt)
      (operands : op.operandType lt rt = .ok target) (convertsLeft : l.ensure target = .ok l')
      (convertsRight : r.ensure target = .ok r') :
      Infers R G (.binOp op left right ty) (.binOp op l' r' (some target)) G'
  | cmpOp {R G H G' op left right l r lt rt target l' r' ty} (typesLeft : Infers R G left l H)
      (typesRight : Infers R H right r G') (leftType : l.type? = some lt) (rightType : r.type? = some rt)
      (operands : op.operandType lt rt = .ok target) (convertsLeft : l.ensure target = .ok l')
      (convertsRight : r.ensure target = .ok r') :
      Infers R G (.cmpOp op left right ty) (.cmpOp op l' r' (some .bool)) G'
  | unOp {R G G' op e v found v' ty} (typesOperand : Infers R G e v G') (operandType : v.type? = some found)
      (converts : v.ensure (op.operandType found) = .ok v') :
      Infers R G (.unOp op e ty) (.unOp op v' (some (op.operandType found))) G'
  | var {R G name declared ty} (looksUp : G.get? name = some declared) :
      Infers R G (.var name ty) (.var name (some declared)) G
  | element {R G G' name index i declared ty} (looksUp : G.get? name = some declared)
      (typesIndex : Infers R G index i G') (indexType : i.type? = some .int) (array : declared.isArray = true) :
      Infers R G (.element name index ty) (.element name i (some declared.toScalar)) G'
  | const {R G c ty} : Infers R G (.const c ty) (.const c (some c.type)) G
  | cast {R G G' via e v v' ty} (typesOperand : Infers R G e v G') (converts : v.ensure via.target = .ok v') :
      Infers R G (.cast via e ty) v' G'
  | assign {R G H G' name val v valType ty} (typesValue : Infers R G val v H) (valueType : v.type? = some valType)
      (scalar : valType.isArray = false) (declares : H.declare name valType = .ok G') :
      Infers R G (.assign name ty val) (.assign name (some valType) v) G'
  | store {R G H K G' name index i val v valType array ty} (typesValue : Infers R G val v H)
      (valueType : v.type? = some valType) (scalar : valType.isArray = false) (typesIndex : Infers R H index i K)
      (indexType : i.type? = some .int) (arrayOf : valType.toArray? = some array)
      (declares : K.declare name array = .ok G') :
      Infers R G (.store name index ty val) (.store name i (some array) v) G'
  | done {R G} : Infers R G (.block []) (.block []) G
  | next {R G H G' t u ts us} (typesFirst : Infers R G t u H) (typesRest : Infers R H (.block ts) (.block us) G') :
      Infers R G (.block (t :: ts)) (.block (u :: us)) G'
  | branch {R G H G' cond c body b} (typesCond : Infers R G cond c H) (typesBody : Infers R H body b G') :
      Infers R G (.branch cond body) (.branch c b) G'
  | branchElse {R G H K G' cond c body b elseBody e} (typesCond : Infers R G cond c H) (typesBody : Infers R H body b K)
      (typesElse : Infers R K elseBody e G') : Infers R G (.branchElse cond body elseBody) (.branchElse c b e) G'
  | loop {R G H K L G' counter min l max u body b} (typesMin : Infers R G min l H) (minType : l.type? = some .int)
      (typesMax : Infers R H max u K) (maxType : u.type? = some .int) (declares : K.declare counter .int = .ok L)
      (typesBody : Infers R L body b G') : Infers R G (.loop counter min max body) (.loop counter l u b) G'
  | ret {G G' val v found ty} (typesValue : Infers (some found) G val v G') (valueType : v.type? = some found) :
      Infers (some found) G (.ret val ty) (.ret v (some found)) G'
  | funcDef {R G H G' name args types returnType body b} (arity : args.length = types.length)
      (declares : (declareAll (args.zip types)).run G = .ok ((), H)) (typesBody : Infers (some returnType) H body b G') :
      Infers R G (.funcDef name args types returnType body) (.funcDef name args types returnType b) G'

/-! ### Typing follows the rules -/

variable {R : Option Ty} {G G' : SymbolTable} {t u : Term}

theorem run_block {ts us : List Term} :
    ((Term.block ts).check R).run G = .ok (.block us, G') ↔ (Term.checkAll R ts).run G = .ok (us, G') := by
  rw [Term.check, run_bind_eq_ok]
  constructor
  · rintro ⟨vs, H, hvs, h⟩
    cases h
    exact hvs
  · exact fun h => ⟨us, G', h, rfl⟩

theorem infers_block {ts us : List Term}
    (ih : ∀ t ∈ ts, ∀ R G u G', (t.check R).run G = .ok (u, G') → Infers R G t u G')
    (h : (Term.checkAll R ts).run G = .ok (us, G')) : Infers R G (.block ts) (.block us) G' := by
  induction ts generalizing G us with
  | nil =>
    rw [Term.checkAll] at h
    cases h
    exact .done
  | cons t ts ihs =>
    rw [Term.checkAll] at h
    obtain ⟨u, H, hu, h⟩ := run_bind_eq_ok.mp h
    obtain ⟨us, _, hus, h⟩ := run_bind_eq_ok.mp h
    cases h
    exact .next (ih t List.mem_cons_self R G u H hu) (ihs (fun t ht => ih t (List.mem_cons_of_mem _ ht)) hus)

theorem infers_of_run (t : Term) (R : Option Ty) (G : SymbolTable) (u : Term) (G' : SymbolTable)
    (h : (t.check R).run G = .ok (u, G')) : Infers R G t u G' := by
  -- A run that succeeds is taken apart step by step; each step gives a premise of the rule.
  induction t generalizing R G u G' with
  | binOp op left right _ ihl ihr =>
    rw [Term.check] at h
    obtain ⟨l, H, hl, h⟩ := run_bind_eq_ok.mp h
    obtain ⟨r, _, hr, h⟩ := run_bind_eq_ok.mp h
    obtain ⟨lt, hlt, h⟩ := run_lift_bind_eq_ok.mp h
    obtain ⟨rt, hrt, h⟩ := run_lift_bind_eq_ok.mp h
    obtain ⟨target, htarget, h⟩ := run_lift_bind_eq_ok.mp h
    obtain ⟨l', hl', h⟩ := run_lift_bind_eq_ok.mp h
    obtain ⟨r', hr', h⟩ := run_lift_bind_eq_ok.mp h
    cases h
    exact .binOp (ihl R G l H hl) (ihr R H r _ hr) (Term.carried_eq_ok.mp hlt) (Term.carried_eq_ok.mp hrt) htarget hl' hr'
  | cmpOp op left right _ ihl ihr =>
    rw [Term.check] at h
    obtain ⟨l, H, hl, h⟩ := run_bind_eq_ok.mp h
    obtain ⟨r, _, hr, h⟩ := run_bind_eq_ok.mp h
    obtain ⟨lt, hlt, h⟩ := run_lift_bind_eq_ok.mp h
    obtain ⟨rt, hrt, h⟩ := run_lift_bind_eq_ok.mp h
    obtain ⟨target, htarget, h⟩ := run_lift_bind_eq_ok.mp h
    obtain ⟨l', hl', h⟩ := run_lift_bind_eq_ok.mp h
    obtain ⟨r', hr', h⟩ := run_lift_bind_eq_ok.mp h
    cases h
    exact .cmpOp (ihl R G l H hl) (ihr R H r _ hr) (Term.carried_eq_ok.mp hlt) (Term.carried_eq_ok.mp hrt) htarget hl' hr'
  | unOp op e _ ih =>
    rw [Term.check] at h
    obtain ⟨v, _, hv, h⟩ := run_bind_eq_ok.mp h
    obtain ⟨v', hoperand, h⟩ := run_lift_bind_eq_ok.mp h
    obtain ⟨result, hresult, h⟩ := run_lift_bind_eq_ok.mp h
    cases h
    obtain ⟨found, hfound, hv'⟩ := bind_eq_ok.mp hoperand
    obtain rfl : op.operandType found = result :=
      Option.some.inj ((Term.type?_of_ensure hv').symm.trans (Term.carried_eq_ok.mp hresult))
    exact .unOp (ih R G v _ hv) (Term.carried_eq_ok.mp hfound) hv'
  | var name _ =>
    rw [Term.check] at h
    obtain ⟨declared, _, hd, h⟩ := run_bind_eq_ok.mp h
    cases h
    obtain ⟨hd, rfl⟩ := run_lookup.mp hd
    exact .var hd
  | element name index _ ih =>
    rw [Term.check] at h
    obtain ⟨declared, _, hd, hrest⟩ := run_bind_eq_ok.mp h
    obtain ⟨hd, rfl⟩ := run_lookup.mp hd
    obtain ⟨i, _, hi, hrest⟩ := run_bind_eq_ok.mp hrest
    obtain ⟨i, hint, hrest⟩ := run_lift_bind_eq_ok.mp hrest
    obtain ⟨result, hresult, hrest⟩ := run_lift_bind_eq_ok.mp hrest
    cases hrest
    obtain ⟨rfl, hint⟩ := Term.asInt_spec hint
    obtain ⟨harray, rfl⟩ := referenceType_spec hresult
    exact .element hd (ih R _ i _ hi) hint harray
  | const c _ =>
    rw [Term.check] at h
    cases h
    exact .const
  | cast via e _ ih =>
    rw [Term.check] at h
    obtain ⟨v, _, hv, h⟩ := run_bind_eq_ok.mp h
    rw [← bind_pure (liftM _)] at h
    obtain ⟨v', hv', h⟩ := run_lift_bind_eq_ok.mp h
    cases h
    exact .cast (ih R G v _ hv) hv'
  | assign name _ val ih =>
    rw [Term.check] at h
    obtain ⟨v, H, hv, h⟩ := run_bind_eq_ok.mp h
    obtain ⟨ty, hty, h⟩ := run_lift_bind_eq_ok.mp h
    obtain ⟨_, _, hd, h⟩ := run_bind_eq_ok.mp h
    cases h
    obtain ⟨htype, hscalar⟩ := Term.assignedType_spec hty
    exact .assign (ih R G v H hv) htype hscalar (run_declare.mp hd)
  | store name index _ val ihi ihv =>
    rw [Term.check] at h
    obtain ⟨v, H, hv, h⟩ := run_bind_eq_ok.mp h
    obtain ⟨ty, hty, h⟩ := run_lift_bind_eq_ok.mp h
    obtain ⟨i, K, hi, h⟩ := run_bind_eq_ok.mp h
    obtain ⟨i, hint, h⟩ := run_lift_bind_eq_ok.mp h
    obtain ⟨array, harray, h⟩ := run_lift_bind_eq_ok.mp h
    obtain ⟨_, _, hd, h⟩ := run_bind_eq_ok.mp h
    cases h
    obtain ⟨htype, hscalar⟩ := Term.assignedType_spec hty
    obtain ⟨rfl, hint⟩ := Term.asInt_spec hint
    exact .store (ihv R G v H hv) htype hscalar (ihi R H i K hi) hint (targetType_spec harray) (run_declare.mp hd)
  | block body ih =>
    rw [Term.check] at h
    obtain ⟨us, _, hus, h⟩ := run_bind_eq_ok.mp h
    cases h
    exact infers_block ih hus
  | branch cond body ihc ihb =>
    rw [Term.check] at h
    obtain ⟨c, H, hc, h⟩ := run_bind_eq_ok.mp h
    obtain ⟨b, _, hb, h⟩ := run_bind_eq_ok.mp h
    cases h
    exact .branch (ihc R G c H hc) (ihb R H b _ hb)
  | branchElse cond body elseBody ihc ihb ihe =>
    rw [Term.check] at h
    obtain ⟨c, H, hc, h⟩ := run_bind_eq_ok.mp h
    obtain ⟨b, K, hb, h⟩ := run_bind_eq_ok.mp h
    obtain ⟨e, _, he, h⟩ := run_bind_eq_ok.mp h
    cases h
    exact .branchElse (ihc R G c H hc) (ihb R H b K hb) (ihe R K e _ he)
  | loop counter min max body ihl ihu ihb =>
    rw [Term.check] at h
    obtain ⟨l, H, hl, h⟩ := run_bind_eq_ok.mp h
    obtain ⟨l, hlint, h⟩ := run_lift_bind_eq_ok.mp h
    obtain ⟨u, K, hu, h⟩ := run_bind_eq_ok.mp h
    obtain ⟨u, huint, h⟩ := run_lift_bind_eq_ok.mp h
    obtain ⟨_, L, hd, h⟩ := run_bind_eq_ok.mp h
    obtain ⟨b, _, hb, h⟩ := run_bind_eq_ok.mp h
    cases h
    obtain ⟨rfl, hlint⟩ := Term.asInt_spec hlint
    obtain ⟨rfl, huint⟩ := Term.asInt_spec huint
    exact .loop (ihl R G l H hl) hlint (ihu R H u K hu) huint (run_declare.mp hd) (ihb R L b _ hb)
  | ret val _ ih =>
    rw [Term.check] at h
    obtain ⟨v, _, hv, h⟩ := run_bind_eq_ok.mp h
    obtain ⟨found, hfound, h⟩ := run_lift_bind_eq_ok.mp h
    by_cases hret : R = some found
    · rw [if_pos hret] at h
      cases h
      subst hret
      exact .ret (ih _ G v _ hv) (Term.carried_eq_ok.mp hfound)
    · rw [if_neg hret] at h
      cases h
  | funcDef name args types returnType body ih =>
    rw [Term.check] at h
    by_cases harity : args.length ≠ types.length
    · rw [if_pos harity] at h
      cases h
    · rw [if_neg harity] at h
      obtain ⟨_, H, hd, h⟩ := run_bind_eq_ok.mp h
      obtain ⟨b, _, hb, h⟩ := run_bind_eq_ok.mp h
      cases h
      exact .funcDef (not_not.mp harity) hd (ih _ H b _ hb)

/-- What the rules derive, typing does. -/
theorem Infers.run (h : Infers R G t u G') : (t.check R).run G = .ok (u, G') := by
  induction h with
  | binOp _ _ hlt hrt operands hl hr ihl ihr =>
    rw [Term.check, run_bind ihl, run_bind ihr]
    simp only [Term.carried_eq_ok.mpr hlt, Term.carried_eq_ok.mpr hrt, operands, hl, hr, liftM_infer_ok, pure_bind]
    rfl
  | cmpOp _ _ hlt hrt operands hl hr ihl ihr =>
    rw [Term.check, run_bind ihl, run_bind ihr]
    simp only [Term.carried_eq_ok.mpr hlt, Term.carried_eq_ok.mpr hrt, operands, hl, hr, liftM_infer_ok, pure_bind]
    rfl
  | unOp _ hfound hv' ih =>
    rw [Term.check, run_bind ih]
    have hresult := Term.carried_eq_ok.mpr (Term.type?_of_ensure hv')
    simp only [Term.asOperand, Term.carried_eq_ok.mpr hfound, ok_bind, hv', hresult, liftM_infer_ok, pure_bind]
    rfl
  | var looksUp =>
    rw [Term.check, run_bind (run_lookup.mpr ⟨looksUp, rfl⟩)]
    rfl
  | element looksUp _ hint harray ih =>
    rw [Term.check, run_bind (run_lookup.mpr ⟨looksUp, rfl⟩), run_bind ih]
    simp only [Term.asInt, Term.carried_eq_ok.mpr hint, ok_bind, if_true, Typing.referenceType, harray]
    rfl
  | const =>
    rw [Term.check]
    rfl
  | cast _ hv' ih =>
    rw [Term.check, run_bind ih, hv']
    rfl
  | assign _ htype hscalar declares ih =>
    rw [Term.check, run_bind ih]
    simp only [Term.assignedType, Term.carried_eq_ok.mpr htype, ok_bind, hscalar, Bool.false_eq_true, if_false]
    refine run_lift_bind_eq_ok.mpr ⟨_, rfl, ?_⟩
    rw [run_bind (run_declare.mpr declares)]
    rfl
  | store _ htype hscalar _ hint harray declares ihv ihi =>
    rw [Term.check, run_bind ihv]
    simp only [Term.assignedType, Term.carried_eq_ok.mpr htype, ok_bind, hscalar, Bool.false_eq_true, if_false]
    refine run_lift_bind_eq_ok.mpr ⟨_, rfl, ?_⟩
    rw [run_bind ihi]
    simp only [Term.asInt, Term.carried_eq_ok.mpr hint, ok_bind, if_true, Typing.targetType, harray]
    refine run_lift_bind_eq_ok.mpr ⟨_, rfl, run_lift_bind_eq_ok.mpr ⟨_, rfl, ?_⟩⟩
    rw [run_bind (run_declare.mpr declares)]
    rfl
  | done =>
    rw [run_block, Term.checkAll]
    rfl
  | next _ _ ih ihs =>
    rw [run_block, Term.checkAll, run_bind ih, run_bind (run_block.mp ihs)]
    rfl
  | branch _ _ ihc ihb =>
    rw [Term.check, run_bind ihc, run_bind ihb]
    rfl
  | branchElse _ _ _ ihc ihb ihe =>
    rw [Term.check, run_bind ihc, run_bind ihb, run_bind ihe]
    rfl
  | loop _ hlint _ huint declares _ ihl ihu ihb =>
    rw [Term.check, run_bind ihl]
    simp only [Term.asInt, Term.carried_eq_ok.mpr hlint, ok_bind, if_true]
    refine run_lift_bind_eq_ok.mpr ⟨_, rfl, ?_⟩
    rw [run_bind ihu]
    simp only [Term.carried_eq_ok.mpr huint, ok_bind, if_true]
    refine run_lift_bind_eq_ok.mpr ⟨_, rfl, ?_⟩
    rw [run_bind (run_declare.mpr declares), run_bind ihb]
    rfl
  | ret _ htype ih =>
    rw [Term.check, run_bind ih]
    simp only [Term.carried_eq_ok.mpr htype, liftM_infer_ok, pure_bind, if_true]
    rfl
  | funcDef arity declares _ ih =>
    rw [Term.check, if_neg (not_not.mpr arity)]
    refine (run_bind declares).trans ?_
    rw [run_bind ih]
    rfl

/-- The rules derive what typing does, and nothing else. -/
theorem infers_iff : Infers R G t u G' ↔ (t.check R).run G = .ok (u, G') := ⟨Infers.run, infers_of_run t R G u G'⟩

/-! ### Tables along the rules -/

theorem run_declareAll_spec {pairs : List (String × Ty)} (h : (declareAll pairs).run G = .ok ((), G')) :
    G'.Extends G ∧ ∀ p ∈ pairs, G'.get? p.1 = some p.2 := by
  induction pairs generalizing G with
  | nil =>
    cases h
    exact ⟨.refl _, by simp⟩
  | cons p pairs ih =>
    obtain ⟨_, H, hd, hrest⟩ := run_bind_eq_ok.mp h
    obtain ⟨hext, hget⟩ := SymbolTable.declare_extends (run_declare.mp hd)
    obtain ⟨hrest, hall⟩ := ih hrest
    exact ⟨hrest.trans hext, List.forall_mem_cons.mpr ⟨hrest _ _ hget, hall⟩⟩

/-- Typing keeps what is declared. -/
theorem Infers.grows (h : Infers R G t u G') : G'.Extends G := by
  induction h with
  | binOp _ _ _ _ _ _ _ ihl ihr => exact ihr.trans ihl
  | cmpOp _ _ _ _ _ _ _ ihl ihr => exact ihr.trans ihl
  | unOp _ _ _ ih => exact ih
  | var => exact .refl _
  | element _ _ _ _ ih => exact ih
  | const => exact .refl _
  | cast _ _ ih => exact ih
  | assign _ _ _ declares ih => exact (SymbolTable.declare_extends declares).1.trans ih
  | store _ _ _ _ _ _ declares ihv ihi => exact ((SymbolTable.declare_extends declares).1.trans ihi).trans ihv
  | done => exact .refl _
  | next _ _ ih ihs => exact ihs.trans ih
  | branch _ _ ihc ihb => exact ihb.trans ihc
  | branchElse _ _ _ ihc ihb ihe => exact (ihe.trans ihb).trans ihc
  | loop _ _ _ _ declares _ ihl ihu ihb => exact ((ihb.trans (SymbolTable.declare_extends declares).1).trans ihu).trans ihl
  | ret _ _ ih => exact ih
  | funcDef _ declares _ ih => exact ih.trans (run_declareAll_spec declares).1

end TypedTree.Expr
