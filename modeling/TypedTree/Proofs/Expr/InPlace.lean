import TypedTree.Expr.InPlace
import TypedTree.Proofs.Run
import TypedTree.Proofs.Tree.Simulation

/-! Typing in place against typing with the return type handed down. A checker that stands in a function of some return
    type checks a node as the rule for that return type does, and has the same return type in the end, whether the node
    is refused or not. So a return is held against the function around it, and nothing that a function puts in the
    checker but its symbols is found after it. -/

namespace TypedTree.Expr.Typing.InPlace
variable {R : Option Ty} {n : Node} {α β : Type}

/-- The two runs end with one value and one table of symbols or with one failure, in one workspace, and the checker
    with the return type `R`. What symbols a checker is left with by a failure is not looked at. -/
inductive SameEnd (R : Option Ty) : Except Error (α × SymbolTable) × Workspace →
    (Except Error α × Checker) × Workspace → Prop
  | done (a : α) (symbols : SymbolTable) (w : Workspace) : SameEnd R (.ok (a, symbols), w) ((.ok a, ⟨symbols, R⟩), w)
  | failed (e : Error) (symbols : SymbolTable) (w : Workspace) : SameEnd R (.error e, w) ((.error e, ⟨symbols, R⟩), w)

/-- In a function of return type `R`, the action in place does what the other one does, and leaves the return type. -/
def Mirrors (R : Option Ty) (x : CheckM α) (y : CheckerM α) : Prop :=
  ∀ symbols w, SameEnd R (outcome x symbols w) (edited y ⟨symbols, R⟩ w)

namespace Mirrors

theorem pure (a : α) : Mirrors R (Pure.pure a) (Pure.pure a) := fun symbols w => .done a symbols w

theorem throw (e : Error) : Mirrors R (MonadExcept.throw e : CheckM α) (MonadExcept.throw e) :=
  fun symbols w => .failed e symbols w

theorem throwBind (e : Error) (f : α → CheckM β) (g : α → CheckerM β) :
    Mirrors R (MonadExcept.throw e >>= f) (MonadExcept.throw e >>= g) := fun symbols w => .failed e symbols w

theorem bind {x : CheckM α} {y : CheckerM α} {f : α → CheckM β} {g : α → CheckerM β} (hx : Mirrors R x y)
    (hf : ∀ a, Mirrors R (f a) (g a)) : Mirrors R (x >>= f) (y >>= g) := by
  intro symbols w
  have h := hx symbols w
  rw [outcome_bind, edited_bind]
  generalize outcome x symbols w = r at h ⊢
  generalize edited y ⟨symbols, R⟩ w = q at h ⊢
  cases h with
  | done a symbols' w' => exact hf a symbols' w'
  | failed e symbols' w' => exact .failed e symbols' w'

theorem lift (x : BuildM α) : Mirrors R (liftM x) (liftM x) := by
  intro symbols w
  rw [outcome_lift]
  show SameEnd R _ (((built x w).1, ⟨symbols, R⟩), (built x w).2)
  rcases built x w with ⟨_ | a, w'⟩
  · exact .failed _ symbols w'
  · exact .done a symbols w'

theorem read (x : Except Error α) : Mirrors R (liftM x) (liftM x) := by
  cases x with
  | ok a => exact pure a
  | error e => exact throw e

theorem ite {c : Prop} [Decidable c] {x x' : CheckM α} {y y' : CheckerM α} (h : Mirrors R x y) (h' : Mirrors R x' y') :
    Mirrors R (if c then x else x') (if c then y else y') := by
  split
  · exact h
  · exact h'

/-- A first step that only reads. -/
theorem readBind {x : Except Error α} {f : α → CheckM β} {g : α → CheckerM β} (hf : ∀ a, Mirrors R (f a) (g a)) :
    Mirrors R (liftM x >>= f) (liftM x >>= g) := bind (read x) hf

theorem get : Mirrors R (MonadState.get : CheckM SymbolTable) MonadState.get := fun symbols w => .done symbols symbols w

theorem set (symbols : SymbolTable) : Mirrors R (MonadStateOf.set symbols : CheckM PUnit) (MonadStateOf.set symbols) :=
  fun _ w => .done _ symbols w

/-- A step that looks at the return type finds the one of the function around. -/
theorem look {x : CheckM α} {g : Checker → CheckerM α} (h : ∀ symbols, Mirrors R x (g ⟨symbols, R⟩)) :
    Mirrors R x (getThe Checker >>= g) := fun symbols w => h symbols symbols w

/-- Work in a function leaves the return type of the function around, also when it fails. -/
theorem inFunction {T : Ty} {x : CheckM α} {y : CheckerM α} (h : Mirrors (some T) x y) :
    Mirrors R x (InPlace.inFunction T y) := by
  intro symbols w
  have h := h symbols w
  rw [InPlace.inFunction, edited_bind]
  -- The work starts with the return type `T` in the checker, and ends with it.
  show SameEnd R _ (edited (observing y >>= _) ⟨symbols, some T⟩ w)
  rw [edited_bind, edited_observing]
  generalize outcome x symbols w = r at h ⊢
  generalize edited y ⟨symbols, some T⟩ w = q at h ⊢
  cases h with
  | done a symbols' w' => exact .done a symbols' w'
  | failed e symbols' w' => exact .failed e symbols' w'

end Mirrors

/-- A node is rebuilt in place as it is otherwise. -/
def mirroring (R : Option Ty) : Simulation CheckM CheckerM where
  Same := Mirrors R
  pure := .pure
  bind := .bind
  lift := .lift

/-! ### Names -/

theorem lookup_mirrors (name : String) : Mirrors R (lookup name) (lookup name) := by
  refine Mirrors.get.bind fun symbols => ?_
  split
  · exact .pure _
  · exact .throw _

theorem declare_mirrors (name : String) (ty : Ty) : Mirrors R (declare name ty) (declare name ty) :=
  Mirrors.get.bind fun _ => .readBind fun symbols => .set symbols

theorem declareArguments_mirrors (args types : List Value) :
    Mirrors R (declareArguments args types) (declareArguments args types) := by
  induction args generalizing types with
  | nil => exact .pure ()
  | cons arg args ih =>
    cases types with
    | nil => cases arg <;> exact .pure ()
    | cons ty types =>
      cases arg with
      | str name =>
        rw [declareArguments, declareArguments]
        cases ty.asMember? Ty with
        | some t => exact (declare_mirrors name t).bind fun _ => ih types
        | none => exact ih types
      | _ => exact ih types

/-! ### Rules -/

section Rules
variable {f : n.Smaller → CheckM Node} {g : n.Smaller → CheckerM Node}

theorem operands_mirrors (h : ∀ c, Mirrors R (f c) (g c)) : Mirrors R (operands n f) (operands n g) :=
  .readBind fun l => (h l).bind fun left => .readBind fun r => (h r).bind fun right => .pure (left, right)

/-- The end of the rules for operations whose operands are converted. -/
theorem convertedOperands_mirrors (left right : Node) (target ty : Ty) :
    Mirrors R (do
      let left ← ensure left target
      let right ← ensure right target
      n.update [("left", .node left), ("right", .node right), ("type", .ofMember ty)]) (do
      let left ← ensure left target
      let right ← ensure right target
      n.update [("left", .node left), ("right", .node right), ("type", .ofMember ty)]) :=
  (Mirrors.lift _).bind fun _ => (Mirrors.lift _).bind fun _ => .lift _

theorem binOp_mirrors (h : ∀ c, Mirrors R (f c) (g c)) : Mirrors R (binOp n f) (binOp n g) := by
  refine .readBind fun op => (operands_mirrors h).bind fun p => .readBind fun leftType => .readBind fun rightType => ?_
  refine .ite (.ite (.lift _) (convertedOperands_mirrors p.1 p.2 _ _)) (.readBind fun target => ?_)
  exact .ite (.lift _) (convertedOperands_mirrors p.1 p.2 target target)

theorem cmpOp_mirrors (h : ∀ c, Mirrors R (f c) (g c)) : Mirrors R (cmpOp n f) (cmpOp n g) := by
  refine .readBind fun op => (operands_mirrors h).bind fun p => .readBind fun leftType => .readBind fun rightType => ?_
  exact .ite (.lift _) (.readBind fun target => convertedOperands_mirrors p.1 p.2 target .bool)

theorem unOp_mirrors (h : ∀ c, Mirrors R (f c) (g c)) : Mirrors R (unOp n f) (unOp n g) :=
  .readBind fun op => .readBind fun c => (h c).bind fun e => (Mirrors.lift (unaryOperand op e)).bind fun _ =>
    .readBind fun _ => .lift _

theorem checkedIndex_mirrors (h : ∀ c, Mirrors R (f c) (g c)) : Mirrors R (checkedIndex n f) (checkedIndex n g) := by
  refine .readBind fun o => ?_
  cases o with
  | none => exact .pure none
  | some index =>
    exact (h index).bind fun index => .readBind fun found => .ite (.pure (some index)) (.throw _)

theorem ref_mirrors (h : ∀ c, Mirrors R (f c) (g c)) : Mirrors R (ref n f) (ref n g) :=
  .readBind fun name => (lookup_mirrors name).bind fun _ => (checkedIndex_mirrors h).bind fun _ =>
    .readBind fun _ => .lift _

theorem cast_mirrors (target : Ty) (h : ∀ c, Mirrors R (f c) (g c)) : Mirrors R (cast target n f) (cast target n g) :=
  .readBind fun c => (h c).bind fun e => .lift (ensure e target)

theorem assign_mirrors (h : ∀ c, Mirrors R (f c) (g c)) : Mirrors R (assign n f) (assign n g) := by
  refine .readBind fun v => (h v).bind fun val => .readBind fun valueType => .ite (.throwBind _ _ _) ?_
  refine .readBind fun target => (checkedIndex_mirrors fun c => h _).bind fun index => .readBind fun declared => ?_
  refine .readBind fun name => (declare_mirrors name declared).bind fun _ => ?_
  exact (Mirrors.lift _).bind fun target => .lift _

theorem loopBound_mirrors (h : ∀ c, Mirrors R (f c) (g c)) (field label : String) :
    Mirrors R (loopBound n f field label) (loopBound n g field label) :=
  .readBind fun c => (h c).bind fun bound => .readBind fun _ => .ite (.pure bound) (.throw _)

theorem loop_mirrors (h : ∀ c, Mirrors R (f c) (g c)) : Mirrors R (loop n f) (loop n g) := by
  refine (loopBound_mirrors h "min" "Lower").bind fun min => (loopBound_mirrors h "max" "Upper").bind fun max => ?_
  refine .readBind fun var => (declare_mirrors var .int).bind fun _ => .readBind fun c => (h c).bind fun body => ?_
  exact .lift _

theorem ret_mirrors (h : ∀ c, Mirrors R (f c) (g c)) : Mirrors R (Typing.ret R n f) (ret n g) :=
  .readBind fun c => (h c).bind fun _ => .readBind fun _ => .look fun _ => .ite (.lift _) (.throw _)

theorem funcDef_mirrors {f : Option Ty → n.Smaller → CheckM Node} (h : ∀ T c, Mirrors T (f T c) (g c)) :
    Mirrors R (Typing.funcDef n f) (funcDef n g) := by
  refine .readBind fun args => .readBind fun types => .ite (.readBind fun name => .throwBind _ _ _) ?_
  refine (declareArguments_mirrors _ _).bind fun _ => .readBind fun T => .inFunction ?_
  exact (mirroring (some T)).mapSmaller _ (h (some T))

end Rules

/-! ### Programs -/

/-- In a function of any return type a node is checked in place as it is when that return type is handed down. -/
theorem check_mirrors (R : Option Ty) (n : Node) : Mirrors R (Typing.check R n) (check n) := by
  -- Of any return type, because the body of a function is checked with another one than the function.
  have below (T : Option Ty) (c : n.Smaller) : Mirrors T (Typing.check T c.1) (check c.1) := check_mirrors T c.1
  have rebuilt := (mirroring R).mapSmaller (.classes ["Stmt", "Expr"]) (below R)
  rw [Typing.check, check]
  cases Kind.of? n with
  | none => exact .ite rebuilt (.throw _)
  | some k =>
    cases k with
    | binOp => exact binOp_mirrors (below R)
    | cmpOp => exact cmpOp_mirrors (below R)
    | unOp => exact unOp_mirrors (below R)
    | ref => exact ref_mirrors (below R)
    | intConst | floatConst | boolConst | voidConst => exact .lift _
    | castToInt | castToFloat | castToBool => exact cast_mirrors _ (below R)
    | assign => exact assign_mirrors (below R)
    | loop => exact loop_mirrors (below R)
    | ret => exact ret_mirrors (below R)
    | funcDef => exact funcDef_mirrors below
    | block | branch => exact .ite rebuilt (.throw _)
termination_by sizeOf n
decreasing_by exact c.2

/-- A node leaves the return type as it found it, whether it is refused or not. -/
theorem returnType_check (n : Node) (c : Checker) (w : Workspace) :
    (edited (check n) c w).1.2.returnType = c.returnType := by
  have h := check_mirrors c.returnType n c.symbols w
  generalize outcome (Typing.check c.returnType n) c.symbols w = r at h
  generalize edited (check n) c w = q at h ⊢
  cases h <;> rfl

/-- One checker that goes through a program types it as the rules do that hand the return type down. -/
theorem analyze_eq (program : Node) : analyze program = Typing.analyze program := by
  refine ExceptT.ext (StateT.ext fun w => ?_)
  show built (analyze program) w = built (Typing.analyze program) w
  have h := check_mirrors none program .empty w
  have hplace : built (liftM ((check program).run.run {}) : BuildM (Except Error Node × Checker)) w =
      (.ok (edited (check program) ⟨.empty, none⟩ w).1, (edited (check program) ⟨.empty, none⟩ w).2) := rfl
  have hdown : built ((Typing.check none program).run .empty) w = outcome (Typing.check none program) .empty w := rfl
  rw [analyze, Typing.analyze, built_bind, built_bind, hplace, hdown]
  generalize outcome (Typing.check none program) .empty w = r at h ⊢
  generalize edited (check program) ⟨.empty, none⟩ w = q at h ⊢
  cases h with
  | done tree symbols w' => rfl
  | failed e symbols w' => rfl

end TypedTree.Expr.Typing.InPlace
