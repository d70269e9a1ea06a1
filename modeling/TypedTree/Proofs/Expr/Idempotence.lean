import TypedTree.Proofs.Expr.Judgement
import TypedTree.Proofs.Expr.Soundness
import TypedTree.Proofs.Expr.Writing
import TypedTree.Proofs.Tree.Canonical

/-! Typing a program that is typed already. Every conversion that typing adds is needed and found again when the typed
    program is typed from the same table, every operand has the type it is converted to, and names are declared in the
    same order. So the typed program comes back with the same symbol table, and only its identities are new. -/

namespace TypedTree.Expr

/-! ### Terms -/

variable {R : Option Ty} {G G' : SymbolTable} {t u : Term}

/-- A conversion that was needed is needed again, and none is added to it. -/
theorem Infers.ensure {target : Ty} (h : Infers R G t t G') (hu : t.ensure target = .ok u) : Infers R G u u G' := by
  obtain ⟨found, -, ⟨-, rfl⟩ | ⟨via, -, rfl, rfl⟩⟩ := Term.ensure_inv hu
  · exact h
  · exact .cast h hu

theorem Term.ensure_again {target : Ty} (h : t.ensure target = .ok u) : u.ensure target = .ok u :=
  ensure_of_carried (carried_eq_ok.mpr (type?_of_ensure h))

theorem BinaryOp.operandType_self {op : BinaryOp} {l r target : Ty} (h : op.operandType l r = .ok target) :
    op.operandType target target = .ok target := by
  rw [BinaryOp.operandType, if_pos rfl, if_neg]
  · rfl
  · rintro ⟨hb, harith⟩
    exact operandType_ne_bool h harith hb

theorem Comparison.operandType_self (op : Comparison) (target : Ty) : op.operandType target target = .ok target :=
  if_pos rfl

theorem UnaryOp.operandType_self (op : UnaryOp) (found : Ty) :
    op.operandType (op.operandType found) = op.operandType found := by
  cases op with
  | neg => by_cases h : found = .bool <;> simp [UnaryOp.operandType, h]
  | not => rfl

/-- What typing ends with, typing leaves as it is. -/
theorem Infers.settled (h : Infers R G t u G') : Infers R G u u G' := by
  induction h with
  | binOp _ _ _ _ operands hl hr ihl ihr =>
    exact .binOp (ihl.ensure hl) (ihr.ensure hr) (Term.type?_of_ensure hl) (Term.type?_of_ensure hr)
      (BinaryOp.operandType_self operands) (Term.ensure_again hl) (Term.ensure_again hr)
  | cmpOp _ _ _ _ _ hl hr ihl ihr =>
    exact .cmpOp (ihl.ensure hl) (ihr.ensure hr) (Term.type?_of_ensure hl) (Term.type?_of_ensure hr)
      (Comparison.operandType_self _ _) (Term.ensure_again hl) (Term.ensure_again hr)
  | @unOp R G G' op _ _ found v' _ _ _ hv ih =>
    have again := Term.ensure_again hv
    rw [← UnaryOp.operandType_self] at again
    have h : Infers R G (.unOp op v' (some (op.operandType found)))
        (.unOp op v' (some (op.operandType (op.operandType found)))) G' :=
      .unOp (ih.ensure hv) (Term.type?_of_ensure hv) again
    rwa [UnaryOp.operandType_self] at h
  | var looksUp => exact .var looksUp
  | element looksUp _ hint harray ih => exact .element looksUp ih hint harray
  | const => exact .const
  | cast _ hv ih => exact ih.ensure hv
  | assign _ htype hscalar declares ih => exact .assign ih htype hscalar declares
  | store _ htype hscalar _ hint harray declares ihv ihi => exact .store ihv htype hscalar ihi hint harray declares
  | done => exact .done
  | next _ _ ih ihs => exact .next ih ihs
  | branch _ _ ihc ihb => exact .branch ihc ihb
  | branchElse _ _ _ ihc ihb ihe => exact .branchElse ihc ihb ihe
  | loop _ hlint _ huint declares _ ihl ihu ihb => exact .loop ihl hlint ihu huint declares ihb
  | ret _ htype ih => exact .ret ih htype
  | funcDef arity declares _ ih => exact .funcDef arity declares ih

/-- Typing the term from `G` on gives the term back and ends with `G'`. -/
def Settled (R : Option Ty) (G : SymbolTable) (t : Term) (G' : SymbolTable) : Prop := (t.check R).run G = .ok (t, G')

theorem check_settled (t : Term) (R : Option Ty) (G : SymbolTable) (u : Term) (G' : SymbolTable)
    (h : (t.check R).run G = .ok (u, G')) : Settled R G u G' := (infers_of_run t R G u G' h).settled.run

/-! ### Programs -/

/-- A typed program is typed again: with the same symbol table, and as a tree that is written the same and has the same
    content where every number equals itself. -/
theorem analyze_idempotent {n : Node} (hn : n.BuiltFrom variants) {w w' : Workspace} {typed : Typing.Typed}
    (h : built (Typing.analyze n) w = (.ok typed, w')) (v : Workspace) :
    ∃ again v', built (Typing.analyze typed.tree) v = (.ok again, v') ∧ again.symbols = typed.symbols ∧
      again.tree.canonicalJson = typed.tree.canonicalJson ∧ again.tree.display = typed.tree.display ∧
      (typed.tree.AllFloats (fun x => x.isNaN = false) → again.tree.sameContent typed.tree = true) := by
  obtain ⟨t, ht⟩ := exists_spells n hn
  have hfirst := analyze_agrees hn ht w
  rw [h] at hfirst
  obtain ⟨⟨u, G⟩, hcheck, hrw, hsymbols⟩ := hfirst.ok_left_inv
  have hsecond := analyze_agrees hrw.builtFrom hrw.spells v
  rw [check_settled t none .empty u G hcheck] at hsecond
  obtain ⟨again, hrun, hrw', hsymbols'⟩ := hsecond.ok_inv
  have text : again.tree.SameText typed.tree :=
    hrw'.spells.sameText hrw.spells hrw'.builtFrom.complete hrw.builtFrom.complete
  refine ⟨again, _, Prod.ext hrun rfl, hsymbols'.trans hsymbols.symm, text.canonicalJson, text.display, fun hnum => ?_⟩
  rw [Node.sameContent_comm]
  exact Node.determined schema.consistent typed.tree hrw.builtFrom hnum again.tree hrw'.builtFrom text.json.symm

/-! ### A conversion that is found again -/

/-- `y := 2.5 * true` -/
def scaledFlag : Node :=
  .mk 4 Kind.assign.variant [
    .node (.mk 0 Kind.ref.variant [.str "y", .absent, .absent]),
    .node (.mk 3 Kind.binOp.variant [.ofMember BinaryOp.mul,
      .node (.mk 1 Kind.floatConst.variant [.float ⟨0x4004000000000000⟩, .absent]),
      .node (.mk 2 Kind.boolConst.variant [.bool true, .absent]), .absent])]

/-- `y := 2.5 * float(true)`, with the types -/
def scaledFlagTyped : Node :=
  .mk 5 Kind.assign.variant [
    .node (.mk 0 Kind.ref.variant [.str "y", .absent, .ofMember Ty.float]),
    .node (.mk 4 Kind.binOp.variant [.ofMember BinaryOp.mul,
      .node (.mk 1 Kind.floatConst.variant [.float ⟨0x4004000000000000⟩, .ofMember Ty.float]),
      .node (.mk 3 Kind.castToFloat.variant [
        .node (.mk 2 Kind.boolConst.variant [.bool true, .ofMember Ty.bool]), .ofMember Ty.float]), .ofMember Ty.float])]

theorem scaledFlag_builtFrom : scaledFlag.BuiltFrom variants := by decide

theorem analyze_idempotent_scaledFlag : scaledFlag.BuiltFrom variants ∧ ∃ typed w',
    built (Typing.analyze scaledFlag) {} = (.ok typed, w') ∧ typed.tree.canonicalJson = scaledFlagTyped.canonicalJson ∧
      ∃ again v', built (Typing.analyze typed.tree) w' = (.ok again, v') ∧ again.symbols = typed.symbols ∧
        again.tree.canonicalJson = typed.tree.canonicalJson ∧ again.tree.display = typed.tree.display ∧
        again.tree.sameContent typed.tree = true := by
  have hspells : Spells scaledFlag (.assign "y" none
      (.binOp .mul (.const (.float ⟨0x4004000000000000⟩) none) (.const (.bool true) none) none)) :=
    .assign rfl rfl rfl rfl rfl rfl rfl (.binOp rfl rfl rfl rfl rfl (.const rfl rfl rfl) (.const rfl rfl rfl))
  have htyped : Spells scaledFlagTyped (.assign "y" (some .float)
      (.binOp .mul (.const (.float ⟨0x4004000000000000⟩) (some .float))
        (.cast .toFloat (.const (.bool true) (some .bool)) (some .float)) (some .float))) :=
    .assign rfl rfl rfl rfl rfl rfl rfl
      (.binOp rfl rfl rfl rfl rfl (.const rfl rfl rfl) (.cast rfl rfl rfl (.const rfl rfl rfl)))
  have hcomplete : scaledFlagTyped.Everywhere Node.Complete :=
    Node.BuiltFrom.complete (show scaledFlagTyped.BuiltFrom variants by decide +kernel)
  obtain ⟨typed, hrun, hrw, -⟩ := Agrees.ok_inv (analyze_agrees scaledFlag_builtFrom hspells {})
  have hbuilt : built (Typing.analyze scaledFlag) {} = (.ok typed, (built (Typing.analyze scaledFlag) {}).2) :=
    Prod.ext hrun rfl
  have text : typed.tree.SameText scaledFlagTyped := hrw.spells.sameText htyped hrw.builtFrom.complete hcomplete
  have hnum : typed.tree.AllFloats fun x => x.isNaN = false := by
    rw [← Node.allFloats_toJson typed.tree hrw.builtFrom.complete, text.json, Node.allFloats_toJson _ hcomplete]
    simp only [scaledFlagTyped, Node.AllFloats, Value.AllFloats, ValuesAllFloats, Value.ofMember]
    decide
  obtain ⟨again, v', hagain, hsymbols, hjson, hdisplay, hcontent⟩ :=
    analyze_idempotent scaledFlag_builtFrom hbuilt (built (Typing.analyze scaledFlag) {}).2
  exact ⟨scaledFlag_builtFrom, typed, _, hbuilt, text.canonicalJson, again, v', hagain, hsymbols, hjson, hdisplay, hcontent hnum⟩

end TypedTree.Expr
