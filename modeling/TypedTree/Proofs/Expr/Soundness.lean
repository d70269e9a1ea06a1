import TypedTree.Proofs.Expr.Refinement
import TypedTree.Proofs.Expr.WellTyped
import TypedTree.Proofs.Tree.Holding

/-! Soundness of typing. When typing a program succeeds, the tree it ends with is a program of the language again,
    every expression in it carries a type, and the tree follows the rules of typing under the symbol table. -/

namespace TypedTree.Expr

/-! ### Types at every expression -/

/-- If the node is an expression, it carries a type. -/
def Annotated (n : Node) : Prop := n.isA "Expr" = true → ∃ ty, typeOf n = .ok (some ty)

section Annotation
variable {n : Node} {t : Term} {F : SymbolTable} {R : Option Ty}

theorem annotated_of_spells (h : Spells n t) (hw : WellTyped F R t) : Annotated n := by
  intro he
  have htype := h.typeOf he
  rw [isA_of_variant h.variant] at he
  cases hw <;> first
    | exact ⟨_, htype⟩
    | exact absurd he Bool.false_ne_true

/-- It is enough to look at the fields that hold nodes. -/
theorem everywhere_of_held {k : Kind} (hn : n.BuiltFrom variants) (kind : n.variant = k.variant) (names : List String)
    (hnames : k.variant.childFields.map Field.name = names) {p : Node → Prop} (hp : p n)
    (hc : ∀ name ∈ names, ∀ c ∈ n.held name, c.Everywhere p) : n.Everywhere p := by
  have hflat : ∀ f ∈ k.variant.fields, f.type.flat = true := by cases k <;> decide
  have hnd : (k.variant.fields.map Field.name).Nodup := by cases k <;> decide
  refine hn.fits.everywhere (by rwa [kind]) hp fun c hmem => ?_
  rw [hn.fits.children_eq (by rwa [kind]), kind] at hmem
  obtain ⟨f, hf, hcf⟩ := List.mem_flatMap.mp hmem
  exact hc f.name (hnames ▸ List.mem_map_of_mem hf) c hcf

theorem reference_everywhere (hn : n.BuiltFrom variants) (kind : n.variant = Kind.ref.variant) {p : Node → Prop}
    (hp : p n) (hc : ∀ c ∈ n.held "index", c.Everywhere p) : n.Everywhere p :=
  everywhere_of_held hn kind ["index"] rfl hp (List.forall_mem_singleton.mpr hc)

theorem everywhere_annotated (h : Spells n t) (hn : n.BuiltFrom variants) (hw : WellTyped F R t) :
    n.Everywhere Annotated := by
  have own := annotated_of_spells h hw
  -- Targets of assignments spell no terms, so they are looked at together with their assignments.
  induction h generalizing R with
  | binOp kind _ readsLeft readsRight _ hl hr ihl ihr =>
    cases hw with
    | binOp left right =>
    refine everywhere_of_held hn kind ["left", "right"] rfl own ?_
    have hleft := ihl (builtFrom_child hn kind readsLeft rfl) left (annotated_of_spells hl left)
    have hright := ihr (builtFrom_child hn kind readsRight rfl) right (annotated_of_spells hr right)
    simpa [Node.held_of_getNode readsLeft, Node.held_of_getNode readsRight] using And.intro hleft hright
  | cmpOp kind _ readsLeft readsRight _ hl hr ihl ihr =>
    cases hw with
    | cmpOp left right =>
    refine everywhere_of_held hn kind ["left", "right"] rfl own ?_
    have hleft := ihl (builtFrom_child hn kind readsLeft rfl) left (annotated_of_spells hl left)
    have hright := ihr (builtFrom_child hn kind readsRight rfl) right (annotated_of_spells hr right)
    simpa [Node.held_of_getNode readsLeft, Node.held_of_getNode readsRight] using And.intro hleft hright
  | @unOp n c op e ty kind _ readsOperand _ he ih =>
    have typed : WellTyped F R e := by cases hw <;> assumption
    refine everywhere_of_held hn kind ["e"] rfl own ?_
    have hoperand := ih (builtFrom_child hn kind readsOperand rfl) typed (annotated_of_spells he typed)
    simpa [Node.held_of_getNode readsOperand] using hoperand
  | var kind _ readsIndex _ =>
    exact reference_everywhere hn kind own (by simp [Node.held_of_getNode?_none readsIndex])
  | element kind _ readsIndex _ hi ih =>
    cases hw with
    | element index =>
    have hindex := ih (builtFrom_optionalChild hn kind readsIndex rfl) index (annotated_of_spells hi index)
    exact reference_everywhere hn kind own (by simpa [Node.held_of_getNode? readsIndex] using hindex)
  | @const n c ty kind _ _ =>
    exact everywhere_of_held hn kind [] (by cases c <;> rfl) own (by simp)
  | @cast n c via e ty kind readsOperand _ he ih =>
    cases hw with
    | cast typed =>
    refine everywhere_of_held hn kind ["expr"] (by cases via <;> rfl) own ?_
    have hf : via.kind.variant.field? "expr" = some ⟨"expr", .node "Expr"⟩ := by cases via <;> rfl
    have hoperand := ih (builtFrom_child hn kind readsOperand hf) typed (annotated_of_spells he typed)
    simpa [Node.held_of_getNode readsOperand] using hoperand
  | assign kind readsTarget readsValue targetKind _ readsIndex readsType hv ih =>
    cases hw with
    | assign val =>
    refine everywhere_of_held hn kind ["ref", "val"] rfl own ?_
    have htarget := reference_everywhere (builtFrom_child hn kind readsTarget rfl) targetKind (p := Annotated)
      (fun _ => ⟨_, readsType⟩) (by simp [Node.held_of_getNode?_none readsIndex])
    have hval := ih (builtFrom_child hn kind readsValue rfl) val (annotated_of_spells hv val)
    simpa [Node.held_of_getNode readsTarget, Node.held_of_getNode readsValue] using And.intro htarget hval
  | store kind readsTarget readsValue targetKind _ readsIndex readsType hi hv ihi ihv =>
    cases hw with
    | store index _ val =>
    refine everywhere_of_held hn kind ["ref", "val"] rfl own ?_
    have hr := builtFrom_child hn kind readsTarget rfl
    have hindex := ihi (builtFrom_optionalChild hr targetKind readsIndex rfl) index (annotated_of_spells hi index)
    have htarget := reference_everywhere hr targetKind (p := Annotated) (fun _ => ⟨_, readsType⟩)
      (by simpa [Node.held_of_getNode? readsIndex] using hindex)
    have hval := ihv (builtFrom_child hn kind readsValue rfl) val (annotated_of_spells hv val)
    simpa [Node.held_of_getNode readsTarget, Node.held_of_getNode readsValue] using And.intro htarget hval
  | @block n ns body kind readsBody sameLength hs ih =>
    cases hw with
    | block typed =>
    refine everywhere_of_held hn kind ["body"] rfl own ?_
    rw [List.forall_mem_singleton, Node.held_of_nodeList readsBody]
    intro c hc
    rw [← List.map_fst_zip (Nat.le_of_eq sameLength)] at hc
    obtain ⟨p, hp, rfl⟩ := List.mem_map.mp hc
    have hmem := List.of_mem_zip hp
    have hb : p.1.BuiltFrom variants := hn.of_get readsBody (by rw [Node.nodes_nodeList]; exact hmem.1)
    exact ih p hp hb (typed p.2 hmem.2) (annotated_of_spells (hs p hp) (typed p.2 hmem.2))
  | branch kind readsCond readsBody readsElse hc hb ihc ihb =>
    cases hw with
    | branch cond body =>
    refine everywhere_of_held hn kind ["cond", "body", "else_body"] rfl own ?_
    have hcond := ihc (builtFrom_child hn kind readsCond rfl) cond (annotated_of_spells hc cond)
    have hbody := ihb (builtFrom_child hn kind readsBody rfl) body (annotated_of_spells hb body)
    simpa [Node.held_of_getNode readsCond, Node.held_of_getNode readsBody, Node.held_of_getNode?_none readsElse]
      using And.intro hcond hbody
  | branchElse kind readsCond readsBody readsElse hc hb he ihc ihb ihe =>
    cases hw with
    | branchElse cond body elseBody =>
    refine everywhere_of_held hn kind ["cond", "body", "else_body"] rfl own ?_
    have hcond := ihc (builtFrom_child hn kind readsCond rfl) cond (annotated_of_spells hc cond)
    have hbody := ihb (builtFrom_child hn kind readsBody rfl) body (annotated_of_spells hb body)
    have helse := ihe (builtFrom_optionalChild hn kind readsElse rfl) elseBody (annotated_of_spells he elseBody)
    simpa [Node.held_of_getNode readsCond, Node.held_of_getNode readsBody, Node.held_of_getNode? readsElse]
      using And.intro hcond (And.intro hbody helse)
  | loop kind _ readsMin readsMax readsBody hl hu hb ihl ihu ihb =>
    cases hw with
    | loop min _ max _ _ body =>
    refine everywhere_of_held hn kind ["min", "max", "body"] rfl own ?_
    have hmin := ihl (builtFrom_child hn kind readsMin rfl) min (annotated_of_spells hl min)
    have hmax := ihu (builtFrom_child hn kind readsMax rfl) max (annotated_of_spells hu max)
    have hbody := ihb (builtFrom_child hn kind readsBody rfl) body (annotated_of_spells hb body)
    simpa [Node.held_of_getNode readsMin, Node.held_of_getNode readsMax, Node.held_of_getNode readsBody]
      using And.intro hmin (And.intro hmax hbody)
  | ret kind readsValue _ hv ih =>
    cases hw with
    | ret val =>
    refine everywhere_of_held hn kind ["val"] rfl own ?_
    have hval := ih (builtFrom_child hn kind readsValue rfl) val (annotated_of_spells hv val)
    simpa [Node.held_of_getNode readsValue] using hval
  | funcDef kind _ _ _ _ _ readsBody hb ih =>
    cases hw with
    | funcDef _ _ body =>
    refine everywhere_of_held hn kind ["body"] rfl own ?_
    have hbody := ih (builtFrom_child hn kind readsBody rfl) body (annotated_of_spells hb body)
    simpa [Node.held_of_getNode readsBody] using hbody

end Annotation

/-! ### Runs -/

theorem built_analyze (n : Node) (w : Workspace) :
    built (Typing.analyze n) w = match outcome (Typing.check none n) .empty w with
      | (.ok (tree, symbols), w') => (.ok ⟨tree, symbols⟩, { w' with
          log := w'.log ++ [⟨.debug, s!"{Typing.passName}: {symbols.size} symbols declared"⟩] })
      | (.error e, w') => (.error e, w') := by
  rw [Typing.analyze, built_bind, ← outcome]
  rcases outcome (Typing.check none n) .empty w with ⟨_ | ⟨tree, symbols⟩, w'⟩ <;> rfl

/-- Typing a program does what typing its term does. -/
theorem analyze_agrees {n : Node} {t : Term} (hn : n.BuiltFrom variants) (ht : Spells n t) (w : Workspace) :
    Agrees (fun typed p => Rewritten n typed.tree p.1 ∧ typed.symbols = p.2) (built (Typing.analyze n) w).1
      ((t.check none).run .empty) := by
  have h := check_refines ht hn none .empty w
  rw [built_analyze]
  generalize outcome (Typing.check none n) .empty w = r at h ⊢
  generalize (t.check none).run .empty = q at h ⊢
  match r, q, h with
  | (.ok _, _), .ok _, h => exact h
  | (.error _, _), .error _, h => exact h

/-- Typing is sound: every expression of the typed program carries a type, and the program follows the rules of typing
    under the symbol table. -/
theorem analyze_sound {n : Node} (hn : n.BuiltFrom variants) {w w' : Workspace} {typed : Typing.Typed}
    (h : built (Typing.analyze n) w = (.ok typed, w')) :
    typed.tree.BuiltFrom variants ∧ typed.tree.Everywhere Annotated ∧
      ∃ t, Spells typed.tree t ∧ WellTyped typed.symbols none t := by
  obtain ⟨t, ht⟩ := exists_spells n hn
  have hagrees := analyze_agrees hn ht w
  rw [h] at hagrees
  obtain ⟨⟨u, G⟩, hcheck, hrw, hsymbols⟩ := hagrees.ok_left_inv
  have hw : WellTyped typed.symbols none u :=
    (check_wellTyped t none .empty u G hcheck).2 _ (hsymbols ▸ .refl _)
  exact ⟨hrw.builtFrom, everywhere_annotated hrw.spells hrw.builtFrom hw, u, hrw.spells, hw⟩

/-! ### An implicit conversion -/

/-- `x := 1 + true` -/
def mixedSum : Node :=
  .mk 4 Kind.assign.variant [
    .node (.mk 0 Kind.ref.variant [.str "x", .absent, .absent]),
    .node (.mk 3 Kind.binOp.variant [.ofMember BinaryOp.add,
      .node (.mk 1 Kind.intConst.variant [.int 1, .absent]),
      .node (.mk 2 Kind.boolConst.variant [.bool true, .absent]), .absent])]

theorem mixedSum_builtFrom : mixedSum.BuiltFrom variants := by decide

theorem analyze_sound_mixedSum : mixedSum.BuiltFrom variants ∧ ∃ typed w',
    built (Typing.analyze mixedSum) {} = (.ok typed, w') ∧ typed.symbols.get? "x" = some .int ∧
      typed.tree.BuiltFrom variants ∧ typed.tree.Everywhere Annotated ∧
      ∃ t, Spells typed.tree t ∧ WellTyped typed.symbols none t := by
  have hspells : Spells mixedSum
      (.assign "x" none (.binOp .add (.const (.int 1) none) (.const (.bool true) none) none)) :=
    .assign rfl rfl rfl rfl rfl rfl rfl (.binOp rfl rfl rfl rfl rfl (.const rfl rfl rfl) (.const rfl rfl rfl))
  obtain ⟨typed, hrun, -, hsymbols⟩ := Agrees.ok_inv (analyze_agrees mixedSum_builtFrom hspells {})
  have hbuilt : built (Typing.analyze mixedSum) {} = (.ok typed, (built (Typing.analyze mixedSum) {}).2) :=
    Prod.ext hrun rfl
  refine ⟨mixedSum_builtFrom, typed, _, hbuilt, ?_, analyze_sound mixedSum_builtFrom hbuilt⟩
  rw [hsymbols]
  rfl

end TypedTree.Expr
