import TypedTree.Proofs.Expr.Soundness
import TypedTree.Proofs.Expr.Writing

/-! What typing leaves as it is. `erase` takes from a program all that typing may add or remove: the types written at
    its nodes, and the conversions, each replaced by its operand. Nothing else of a program changes when it is typed:
    the program and its typed form are one program once both are erased. -/

namespace TypedTree.Expr

/-! ### Erased trees -/

/-- The operand of a conversion, and any other node itself. -/
def stripConversion (n : Node) : Node :=
  match Kind.of? n, n.getNode "expr" with
  | some .castToInt, .ok operand | some .castToFloat, .ok operand | some .castToBool, .ok operand => operand
  | _, _ => n

mutual

/-- The tree without the types written at its nodes, and with every conversion replaced by its operand. -/
def erase : Node → Node
  | .mk id v values => stripConversion (.mk id v (eraseFields v.fields values))

def eraseValue : Value → Value
  | .node n => .node (erase n)
  | .list items => .list (eraseItems items)
  | .set items => .set (eraseItems items)
  | v => v

def eraseItems : List Value → List Value
  | [] => []
  | v :: vs => eraseValue v :: eraseItems vs

def eraseFields : List Field → List Value → List Value
  | f :: fs, v :: vs => (if f.name = "type" then .absent else eraseValue v) :: eraseFields fs vs
  | _, _ => []

end

theorem eraseItems_eq (vs : List Value) : eraseItems vs = vs.map eraseValue := by
  induction vs with
  | nil => rfl
  | cons v vs ih => rw [eraseItems, ih, List.map_cons]

theorem eraseItems_eq_self {vs : List Value} (h : ∀ v ∈ vs, eraseValue v = v) : eraseItems vs = vs := by
  rw [eraseItems_eq, List.map_congr_left h, List.map_id']

theorem eraseItems_nodes (ns : List Node) : eraseValue (.nodeList ns) = .nodeList (ns.map erase) := by
  simp [Value.nodeList, eraseValue, eraseItems_eq]

/-- Stored members stay as they are. -/
theorem eraseValue_of_asMember? {α : Type} [Enumerated α] {v : Value} (h : (v.asMember? α).isSome = true) :
    eraseValue v = v := by
  cases v with
  | enum m => rfl
  | _ => cases h

/-! ### Nodes before their conversion is stripped -/

/-- The node with its fields erased, and a conversion still. -/
def bare (n : Node) : Node := .mk n.id n.variant (eraseFields n.variant.fields n.values)

theorem erase_eq (n : Node) : erase n = stripConversion (bare n) := by
  cases n
  rw [erase]
  rfl

section Bare
variable {n c : Node} {name : String}

theorem bare_get (n : Node) (name : String) :
    (bare n).get name = (n.get name).map fun v => if name = "type" then .absent else eraseValue v := by
  have find : ∀ (fs : List Field) (vs : List Value),
      ((fs.zip (eraseFields fs vs)).find? fun e => e.1.name == name).map Prod.snd =
        ((fs.zip vs).find? fun e => e.1.name == name).map fun e => if name = "type" then .absent else eraseValue e.2 := by
    intro fs vs
    induction fs generalizing vs with
    | nil => rfl
    | cons f fs ih =>
      cases vs with
      | nil => rfl
      | cons v vs =>
        rw [eraseFields, List.zip_cons_cons, List.zip_cons_cons, List.find?_cons, List.find?_cons]
        cases hf : f.name == name with
        | false => exact ih vs
        | true => simp [beq_iff_eq.mp hf]
  have h := find n.variant.fields n.values
  rw [Node.get, Node.get, show (bare n).fields = n.variant.fields.zip (eraseFields n.variant.fields n.values) from rfl,
    show n.fields = n.variant.fields.zip n.values from rfl]
  generalize (n.variant.fields.zip (eraseFields n.variant.fields n.values)).find? _ = p at h ⊢
  generalize (n.variant.fields.zip n.values).find? _ = q at h ⊢
  cases p with
  | none =>
    cases q with
    | none => rfl
    | some e => cases h
  | some e =>
    cases q with
    | none => cases h
    | some e' => exact congrArg Except.ok (Option.some.inj h)

theorem bare_get_of_get {v : Value} (h : n.get name = .ok v) (hn : name ≠ "type") :
    (bare n).get name = .ok (eraseValue v) := by
  rw [bare_get, h]
  exact congrArg Except.ok (if_neg hn)

theorem bare_getNode (h : n.getNode name = .ok c) (hn : name ≠ "type" := by decide) :
    (bare n).getNode name = .ok (erase c) :=
  Node.getNode_of_get (bare_get_of_get (Node.get_of_getNode h) hn)

theorem bare_getNode? (h : n.getNode? name = .ok (some c)) (hn : name ≠ "type" := by decide) :
    (bare n).getNode? name = .ok (some (erase c)) :=
  Node.getNode?_of_get (bare_get_of_get (Node.get_of_getNode? h) hn)

theorem bare_getNode?_none (h : n.getNode? name = .ok none) (hn : name ≠ "type" := by decide) :
    (bare n).getNode? name = .ok none :=
  Node.getNode?_of_get_absent (bare_get_of_get (Node.get_absent_of_getNode? h) hn)

theorem bare_getStr {s : String} (h : n.getStr name = .ok s) (hn : name ≠ "type" := by decide) :
    (bare n).getStr name = .ok s :=
  Node.getStr_of_get (bare_get_of_get (Node.get_of_getStr h) hn)

theorem bare_getMember {α : Type} [Enumerated α] {a : α} (h : n.getMember α name = .ok a)
    (hn : name ≠ "type" := by decide) : (bare n).getMember α name = .ok a := by
  obtain ⟨v, hv, ha⟩ := Node.get_of_getMember h
  have hsame := eraseValue_of_asMember? (α := α) (v := v) (by rw [ha]; rfl)
  exact Node.getMember_of_get (hsame ▸ bare_get_of_get hv hn) ha

theorem bare_typeOf {ty : Option Ty} (h : typeOf n = .ok ty) : typeOf (bare n) = .ok none := by
  obtain ⟨v, hv, -⟩ := Node.get_of_getMember? h
  refine Node.getMember?_of_get_absent ?_
  rw [bare_get, hv]
  rfl

theorem erase_eq_bare {k : Kind} (kind : n.variant = k.variant)
    (hk : k ≠ .castToInt ∧ k ≠ .castToFloat ∧ k ≠ .castToBool) : erase n = bare n := by
  rw [erase_eq, stripConversion, Kind.of?_of_variant (n := bare n) kind]
  cases k <;> simp at hk ⊢

theorem erase_conversion {via : Conversion} (kind : n.variant = via.kind.variant) (h : n.getNode "expr" = .ok c) :
    erase n = erase c := by
  rw [erase_eq, stripConversion, Kind.of?_of_variant (n := bare n) kind, bare_getNode h]
  cases via <;> rfl

end Bare

/-! ### Erased trees are complete -/

theorem stripConversion_eq_or_mem (n : Node) : stripConversion n = n ∨ stripConversion n ∈ n.children := by
  unfold stripConversion
  split
  all_goals first
    | exact Or.inl rfl
    | exact Or.inr (Node.mem_children_of_getNode ‹_›)

theorem Everywhere.stripConversion {p : Node → Prop} {n : Node} (h : n.Everywhere p) :
    (stripConversion n).Everywhere p := by
  rcases stripConversion_eq_or_mem n with heq | hmem
  · rwa [heq]
  · exact h.child hmem

theorem length_eraseFields {fs : List Field} {vs : List Value} (h : vs.length = fs.length) :
    (eraseFields fs vs).length = fs.length := by
  induction fs generalizing vs with
  | nil => cases vs <;> rfl
  | cons f fs ih =>
    obtain ⟨v, vs, rfl⟩ := List.exists_cons_of_length_eq_add_one h
    rw [eraseFields, List.length_cons, List.length_cons, ih (Nat.succ.inj h)]

mutual

theorem erase_complete : ∀ n : Node, n.Everywhere Node.Complete → (erase n).Everywhere Node.Complete
  | .mk id v values, h => by
    rw [erase]
    rw [Node.Everywhere] at h
    refine Everywhere.stripConversion ?_
    rw [Node.Everywhere]
    exact ⟨length_eraseFields h.1, eraseFields_complete v.fields values h.2⟩

theorem eraseValue_complete : ∀ v : Value, v.Everywhere Node.Complete → (eraseValue v).Everywhere Node.Complete
  | .node n, h => by
    rw [Value.Everywhere] at h
    rw [eraseValue, Value.Everywhere]
    exact erase_complete n h
  | .list items, h => by
    rw [Value.Everywhere] at h
    rw [eraseValue, Value.Everywhere]
    exact eraseItems_complete items h
  | .set items, h => by
    rw [Value.Everywhere] at h
    rw [eraseValue, Value.Everywhere]
    exact eraseItems_complete items h
  | .absent, _ | .int _, _ | .float _, _ | .bool _, _ | .str _, _ | .enum _, _ => trivial

theorem eraseItems_complete :
    ∀ vs : List Value, ValuesEverywhere Node.Complete vs → ValuesEverywhere Node.Complete (eraseItems vs)
  | [], _ => trivial
  | v :: vs, h => ⟨eraseValue_complete v h.1, eraseItems_complete vs h.2⟩

theorem eraseFields_complete :
    ∀ (fs : List Field) (vs : List Value), ValuesEverywhere Node.Complete vs →
      ValuesEverywhere Node.Complete (eraseFields fs vs)
  | f :: fs, v :: vs, h => by
    rw [eraseFields]
    refine ⟨?_, eraseFields_complete fs vs h.2⟩
    by_cases hf : f.name = "type"
    · rw [if_pos hf]
      trivial
    · rw [if_neg hf]
      exact eraseValue_complete v h.1
  | [], [], _ | [], _ :: _, _ | _ :: _, [], _ => trivial

end

/-! ### Erased terms -/

namespace Term

mutual

/-- The term without the types written on it and without its conversions. -/
def erase : Term → Term
  | .binOp op left right _ => .binOp op left.erase right.erase none
  | .cmpOp op left right _ => .cmpOp op left.erase right.erase none
  | .unOp op e _ => .unOp op e.erase none
  | .var name _ => .var name none
  | .element name index _ => .element name index.erase none
  | .const c _ => .const c none
  | .cast _ e _ => e.erase
  | .assign name _ val => .assign name none val.erase
  | .store name index _ val => .store name index.erase none val.erase
  | .block body => .block (eraseAll body)
  | .branch cond body => .branch cond.erase body.erase
  | .branchElse cond body elseBody => .branchElse cond.erase body.erase elseBody.erase
  | .loop counter min max body => .loop counter min.erase max.erase body.erase
  | .ret val _ => .ret val.erase none
  | .funcDef name args types returnType body => .funcDef name args types returnType body.erase

def eraseAll : List Term → List Term
  | [] => []
  | t :: ts => t.erase :: eraseAll ts

end

theorem eraseAll_eq (ts : List Term) : eraseAll ts = ts.map erase := by
  induction ts with
  | nil => rfl
  | cons t ts ih => rw [eraseAll, ih, List.map_cons]

end Term

/-- An erased tree spells the erased term. -/
theorem Spells.erase {n : Node} {t : Term} (h : Spells n t) : Spells (Expr.erase n) t.erase := by
  induction h with
  | binOp kind readsOp readsLeft readsRight readsType _ _ ihl ihr =>
    rw [erase_eq_bare kind (by decide), Term.erase]
    exact .binOp kind (bare_getMember readsOp) (bare_getNode readsLeft) (bare_getNode readsRight) (bare_typeOf readsType)
      ihl ihr
  | cmpOp kind readsOp readsLeft readsRight readsType _ _ ihl ihr =>
    rw [erase_eq_bare kind (by decide), Term.erase]
    exact .cmpOp kind (bare_getMember readsOp) (bare_getNode readsLeft) (bare_getNode readsRight) (bare_typeOf readsType)
      ihl ihr
  | unOp kind readsOp readsOperand readsType _ ih =>
    rw [erase_eq_bare kind (by decide), Term.erase]
    exact .unOp kind (bare_getMember readsOp) (bare_getNode readsOperand) (bare_typeOf readsType) ih
  | var kind readsName readsIndex readsType =>
    rw [erase_eq_bare kind (by decide), Term.erase]
    exact .var kind (bare_getStr readsName) (bare_getNode?_none readsIndex) (bare_typeOf readsType)
  | element kind readsName readsIndex readsType _ ih =>
    rw [erase_eq_bare kind (by decide), Term.erase]
    exact .element kind (bare_getStr readsName) (bare_getNode? readsIndex) (bare_typeOf readsType) ih
  | @const n c ty kind holds readsType =>
    rw [erase_eq_bare kind (by cases c <;> simp [Constant.kind]), Term.erase]
    refine .const kind ?_ (bare_typeOf readsType)
    cases c with
    | void => trivial
    | _ => exact bare_get_of_get holds (by decide)
  | cast kind readsOperand _ _ ih =>
    rw [erase_conversion kind readsOperand, Term.erase]
    exact ih
  | assign kind readsTarget readsValue targetKind readsName readsIndex readsType _ ih =>
    rw [erase_eq_bare kind (by decide), Term.erase]
    have htarget := bare_getNode readsTarget
    rw [erase_eq_bare targetKind (by decide)] at htarget
    exact .assign kind htarget (bare_getNode readsValue) targetKind (bare_getStr readsName)
      (bare_getNode?_none readsIndex) (bare_typeOf readsType) ih
  | store kind readsTarget readsValue targetKind readsName readsIndex readsType _ _ ihi ihv =>
    rw [erase_eq_bare kind (by decide), Term.erase]
    have htarget := bare_getNode readsTarget
    rw [erase_eq_bare targetKind (by decide)] at htarget
    exact .store kind htarget (bare_getNode readsValue) targetKind (bare_getStr readsName)
      (bare_getNode? readsIndex) (bare_typeOf readsType) ihi ihv
  | block kind readsBody sameLength _ ih =>
    rw [erase_eq_bare kind (by decide), Term.erase, Term.eraseAll_eq]
    refine .block kind (eraseItems_nodes _ ▸ bare_get_of_get readsBody (by decide)) (by simpa using sameLength) ?_
    rw [List.zip_map]
    exact List.forall_mem_map.mpr ih
  | branch kind readsCond readsBody readsElse _ _ ihc ihb =>
    rw [erase_eq_bare kind (by decide), Term.erase]
    exact .branch kind (bare_getNode readsCond) (bare_getNode readsBody) (bare_getNode?_none readsElse) ihc ihb
  | branchElse kind readsCond readsBody readsElse _ _ _ ihc ihb ihe =>
    rw [erase_eq_bare kind (by decide), Term.erase]
    exact .branchElse kind (bare_getNode readsCond) (bare_getNode readsBody) (bare_getNode? readsElse) ihc ihb ihe
  | loop kind readsVar readsMin readsMax readsBody _ _ _ ihl ihu ihb =>
    rw [erase_eq_bare kind (by decide), Term.erase]
    exact .loop kind (bare_getStr readsVar) (bare_getNode readsMin) (bare_getNode readsMax) (bare_getNode readsBody)
      ihl ihu ihb
  | ret kind readsValue readsType _ ih =>
    rw [erase_eq_bare kind (by decide), Term.erase]
    exact .ret kind (bare_getNode readsValue) (bare_typeOf readsType) ih
  | @funcDef n b name args ms types returnType body kind readsName readsArgs readsTypes typesOf readsReturn readsBody _ ih =>
    rw [erase_eq_bare kind (by decide), Term.erase]
    have hargs : eraseItems (args.map Value.str) = args.map .str :=
      eraseItems_eq_self (List.forall_mem_map.mpr fun _ _ => rfl)
    have htypes : eraseItems ms = ms := eraseItems_eq_self fun v hv => by
      have hmem := List.mem_map_of_mem (f := Value.asMember? Ty) hv
      rw [typesOf] at hmem
      obtain ⟨ty, -, hty⟩ := List.mem_map.mp hmem
      exact eraseValue_of_asMember? (by rw [← hty]; rfl)
    have args' := bare_get_of_get readsArgs (by decide)
    have types' := bare_get_of_get readsTypes (by decide)
    rw [eraseValue, hargs] at args'
    rw [eraseValue, htypes] at types'
    exact .funcDef kind (bare_getStr readsName) args' types' typesOf (bare_getMember readsReturn) (bare_getNode readsBody) ih

/-! ### What typing keeps -/

theorem Term.erase_ensure {t u : Term} {target : Ty} (h : t.ensure target = .ok u) : u.erase = t.erase := by
  obtain ⟨found, -, ⟨-, rfl⟩ | ⟨via, -, -, rfl⟩⟩ := ensure_inv h
  · rfl
  · rw [erase]

/-- The typed form of a term is that term once both are erased. -/
theorem Infers.erase_eq {R : Option Ty} {G G' : SymbolTable} {t u : Term} (h : Infers R G t u G') : u.erase = t.erase := by
  induction h with
  | binOp _ _ _ _ _ hl' hr' ihl ihr =>
    rw [Term.erase, Term.erase, Term.erase_ensure hl', Term.erase_ensure hr', ihl, ihr]
  | cmpOp _ _ _ _ _ hl' hr' ihl ihr =>
    rw [Term.erase, Term.erase, Term.erase_ensure hl', Term.erase_ensure hr', ihl, ihr]
  | unOp _ _ hv' ih => rw [Term.erase, Term.erase, Term.erase_ensure hv', ih]
  | var => rw [Term.erase, Term.erase]
  | element _ _ _ _ ih => rw [Term.erase, Term.erase, ih]
  | const => rw [Term.erase, Term.erase]
  | cast _ hv' ih => rw [Term.erase, Term.erase_ensure hv', ih]
  | assign _ _ _ _ ih => rw [Term.erase, Term.erase, ih]
  | store _ _ _ _ _ _ _ ihv ihi => rw [Term.erase, Term.erase, ihv, ihi]
  | done => rfl
  | next _ _ ih ihs =>
    rw [Term.erase, Term.erase, Term.block.injEq] at ihs
    rw [Term.erase, Term.erase, Term.eraseAll, Term.eraseAll, ih, ihs]
  | branch _ _ ihc ihb => rw [Term.erase, Term.erase, ihc, ihb]
  | branchElse _ _ _ ihc ihb ihe => rw [Term.erase, Term.erase, ihc, ihb, ihe]
  | loop _ _ _ _ _ _ ihl ihu ihb => rw [Term.erase, Term.erase, ihl, ihu, ihb]
  | ret _ _ ih => rw [Term.erase, Term.erase, ih]
  | funcDef _ _ _ ih => rw [Term.erase, Term.erase, ih]

theorem check_erase (t : Term) (R : Option Ty) : Establishes (t.check R) fun _ u => u.erase = t.erase := by
  intro G u G' h
  have typing := infers_of_run t R G u G' h
  exact ⟨typing.grows, fun _ _ => typing.erase_eq⟩

/-- Typing adds and removes conversions and types only: a program and its typed form, both erased, are written the
    same. -/
theorem analyze_erase {n : Node} (hn : n.BuiltFrom variants) {w w' : Workspace} {typed : Typing.Typed}
    (h : built (Typing.analyze n) w = (.ok typed, w')) :
    (erase typed.tree).canonicalJson = (erase n).canonicalJson ∧ (erase typed.tree).display = (erase n).display := by
  obtain ⟨t, ht⟩ := exists_spells n hn
  have hagrees := analyze_agrees hn ht w
  rw [h] at hagrees
  obtain ⟨⟨u, G⟩, hcheck, hrw, -⟩ := hagrees.ok_left_inv
  have kept : u.erase = t.erase := (check_erase t none .empty u G hcheck).2 G (.refl G)
  have text : (erase typed.tree).SameText (erase n) :=
    (kept ▸ hrw.spells.erase).sameText ht.erase (erase_complete _ hrw.builtFrom.complete) (erase_complete _ hn.complete)
  exact ⟨text.canonicalJson, text.display⟩

/-! ### A conversion that goes and one that comes -/

/-- `x := int(1) + true` -/
def recastSum : Node :=
  .mk 5 Kind.assign.variant [
    .node (.mk 0 Kind.ref.variant [.str "x", .absent, .absent]),
    .node (.mk 4 Kind.binOp.variant [.ofMember BinaryOp.add,
      .node (.mk 2 Kind.castToInt.variant [.node (.mk 1 Kind.intConst.variant [.int 1, .absent]), .absent]),
      .node (.mk 3 Kind.boolConst.variant [.bool true, .absent]), .absent])]

theorem recastSum_builtFrom : recastSum.BuiltFrom variants := by decide

/-- It is typed as `x := 1 + int(true)`. -/
theorem analyze_erase_recastSum : recastSum.BuiltFrom variants ∧ ∃ typed w',
    built (Typing.analyze recastSum) {} = (.ok typed, w') ∧
      Spells typed.tree (.assign "x" (some .int) (.binOp .add (.const (.int 1) (some .int))
        (.cast .toInt (.const (.bool true) (some .bool)) (some .int)) (some .int))) ∧
      (erase typed.tree).canonicalJson = (erase recastSum).canonicalJson ∧
      (erase typed.tree).display = (erase recastSum).display := by
  have hspells : Spells recastSum (.assign "x" none (.binOp .add (.cast .toInt (.const (.int 1) none) none)
      (.const (.bool true) none) none)) :=
    .assign rfl rfl rfl rfl rfl rfl rfl
      (.binOp rfl rfl rfl rfl rfl (.cast rfl rfl rfl (.const rfl rfl rfl)) (.const rfl rfl rfl))
  obtain ⟨typed, hrun, hrw, -⟩ := Agrees.ok_inv (analyze_agrees recastSum_builtFrom hspells {})
  have hbuilt : built (Typing.analyze recastSum) {} = (.ok typed, (built (Typing.analyze recastSum) {}).2) :=
    Prod.ext hrun rfl
  exact ⟨recastSum_builtFrom, typed, _, hbuilt, hrw.spells, analyze_erase recastSum_builtFrom hbuilt⟩

end TypedTree.Expr
