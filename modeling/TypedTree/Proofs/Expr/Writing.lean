import TypedTree.Proofs.Expr.Program
import TypedTree.Proofs.Tree.Text

/-! A term says all that the written forms of a tree show: trees that spell one term are written the same. Identities
    are not written, and neither is what else a stored type could have come from. -/

namespace TypedTree.Expr
variable {n m : Node}

theorem nodup_fields (k : Kind) : (k.variant.fields.map Field.name).Nodup := by
  cases k <;> decide

/-- Nodes of one kind are written the same if all their fields are. -/
theorem sameText_of_fields {k : Kind} (hn : n.Complete) (hm : m.Complete) (kind : n.variant = k.variant)
    (kind' : m.variant = k.variant) (h : ∀ name ∈ k.fields.map Field.name, n.ReadSame m name) : n.SameText m := by
  refine Node.sameText_of_readSame hn hm (kind.trans kind'.symm) (by rw [kind]; exact nodup_fields k) ?_
  rw [kind]
  exact fun f hf => h f.name (List.mem_map_of_mem hf)

/-- Types of arguments that are read back as the same types. -/
theorem sameText_types {ms ks : List Value} {types : List Ty} (hms : ms.map (Value.asMember? Ty) = types.map some)
    (hks : ks.map (Value.asMember? Ty) = types.map some) : List.Forall₂ Value.SameText ms ks := by
  induction types generalizing ms ks with
  | nil =>
    obtain rfl := List.map_eq_nil_iff.mp hms
    obtain rfl := List.map_eq_nil_iff.mp hks
    exact .nil
  | cons ty types ih =>
    obtain ⟨v, ms, rfl, hv, hms⟩ := List.map_eq_cons_iff.mp hms
    obtain ⟨w, ks, rfl, hw, hks⟩ := List.map_eq_cons_iff.mp hks
    exact .cons (.member (hv.trans hw.symm) (by rw [hv]; rfl)) (ih hms hks)

/-- Blocks of the same statements, tree by tree, are written the same. -/
theorem sameText_statements {ns ms : List Node} {ts : List Term} (hn : ns.length = ts.length) (hm : ms.length = ts.length)
    (h : ∀ p ∈ ns.zip ts, ∀ c ∈ ms, Spells c p.2 → p.1.SameText c) (hs : ∀ p ∈ ms.zip ts, Spells p.1 p.2) :
    (Value.nodeList ns).SameText (.nodeList ms) := by
  have trees : List.Forall₂ Node.SameText ns ms := by
    induction ts generalizing ns ms with
    | nil =>
      obtain rfl := List.eq_nil_of_length_eq_zero hn
      obtain rfl := List.eq_nil_of_length_eq_zero hm
      exact .nil
    | cons t ts ih =>
      obtain ⟨n, ns, rfl⟩ := List.exists_cons_of_length_eq_add_one hn
      obtain ⟨m, ms, rfl⟩ := List.exists_cons_of_length_eq_add_one hm
      rw [List.zip_cons_cons, List.forall_mem_cons] at h hs
      refine .cons (h.1 m List.mem_cons_self hs.1) (ih (Nat.succ.inj hn) (Nat.succ.inj hm) ?_ hs.2)
      exact fun p hp c hc => h.2 p hp c (List.mem_cons_of_mem _ hc)
  exact .list (List.forall₂_map_left_iff.mpr (List.forall₂_map_right_iff.mpr (trees.imp fun _ _ => .node)))

/-- The node reads a complete tree under the name, both trees written the same. -/
theorem readSame_node {c d : Node} {name : String} (hnc : n.Everywhere Node.Complete) (hmc : m.Everywhere Node.Complete)
    (hn : n.getNode name = .ok c) (hm : m.getNode name = .ok d)
    (h : c.Everywhere Node.Complete → d.Everywhere Node.Complete → c.SameText d) : n.ReadSame m name :=
  .node hn hm (h (hnc.child (Node.mem_children_of_getNode hn)) (hmc.child (Node.mem_children_of_getNode hm)))

theorem readSame_optionalNode {c d : Node} {name : String} (hnc : n.Everywhere Node.Complete)
    (hmc : m.Everywhere Node.Complete) (hn : n.getNode? name = .ok (some c)) (hm : m.getNode? name = .ok (some d))
    (h : c.Everywhere Node.Complete → d.Everywhere Node.Complete → c.SameText d) : n.ReadSame m name :=
  .optionalNode hn hm (h (hnc.child (Node.mem_children_of_getNode? hn)) (hmc.child (Node.mem_children_of_getNode? hm)))

attribute [local simp] Kind.fields Kind.typeField in
/-- References to one name, with one type, are written the same if their indices are. -/
theorem sameText_ref {x : String} {ty : Option Ty} (hnc : n.Everywhere Node.Complete)
    (hmc : m.Everywhere Node.Complete) (kind : n.variant = Kind.ref.variant) (kind' : m.variant = Kind.ref.variant)
    (readsName : n.getStr "name" = .ok x) (readsName' : m.getStr "name" = .ok x)
    (readsType : typeOf n = .ok ty) (readsType' : typeOf m = .ok ty) (index : n.ReadSame m "index") : n.SameText m := by
  have name := Node.ReadSame.str readsName readsName'
  have type := Node.ReadSame.optionalMember readsType readsType'
  exact sameText_of_fields hnc.here hmc.here kind kind' (by simp [name, index, type])

attribute [local simp] Kind.fields Kind.typeField in
theorem Spells.sameText {t : Term} (hn : Spells n t) (hm : Spells m t) (hnc : n.Everywhere Node.Complete)
    (hmc : m.Everywhere Node.Complete) : n.SameText m := by
  -- A tree is taken apart as the other one is: the constructor is settled by the term.
  induction hn generalizing m with
  | binOp kind readsOp readsLeft readsRight readsType _ _ ihl ihr =>
    cases hm with
    | binOp kind' readsOp' readsLeft' readsRight' readsType' hl hr =>
    have op := Node.ReadSame.member readsOp readsOp'
    have left := readSame_node hnc hmc readsLeft readsLeft' (ihl hl)
    have right := readSame_node hnc hmc readsRight readsRight' (ihr hr)
    have type := Node.ReadSame.optionalMember readsType readsType'
    exact sameText_of_fields hnc.here hmc.here kind kind' (by simp [op, left, right, type])
  | cmpOp kind readsOp readsLeft readsRight readsType _ _ ihl ihr =>
    cases hm with
    | cmpOp kind' readsOp' readsLeft' readsRight' readsType' hl hr =>
    have op := Node.ReadSame.member readsOp readsOp'
    have left := readSame_node hnc hmc readsLeft readsLeft' (ihl hl)
    have right := readSame_node hnc hmc readsRight readsRight' (ihr hr)
    have type := Node.ReadSame.optionalMember readsType readsType'
    exact sameText_of_fields hnc.here hmc.here kind kind' (by simp [op, left, right, type])
  | unOp kind readsOp readsOperand readsType _ ih =>
    cases hm with
    | unOp kind' readsOp' readsOperand' readsType' he =>
    have op := Node.ReadSame.member readsOp readsOp'
    have operand := readSame_node hnc hmc readsOperand readsOperand' (ih he)
    have type := Node.ReadSame.optionalMember readsType readsType'
    exact sameText_of_fields hnc.here hmc.here kind kind' (by simp [op, operand, type])
  | var kind readsName readsIndex readsType =>
    cases hm with
    | var kind' readsName' readsIndex' readsType' =>
    have index := Node.ReadSame.none readsIndex readsIndex'
    exact sameText_ref hnc hmc kind kind' readsName readsName' readsType readsType' index
  | element kind readsName readsIndex readsType _ ih =>
    cases hm with
    | element kind' readsName' readsIndex' readsType' hi =>
    have index := readSame_optionalNode hnc hmc readsIndex readsIndex' (ih hi)
    exact sameText_ref hnc hmc kind kind' readsName readsName' readsType readsType' index
  | @const n c ty kind holds readsType =>
    cases hm with
    | const kind' holds' readsType' =>
    have type := Node.ReadSame.optionalMember readsType readsType'
    refine sameText_of_fields hnc.here hmc.here kind kind' ?_
    cases c with
    | void => simp [Constant.kind, type]
    | _ => simp [Constant.kind, type, Node.ReadSame.of_get holds holds' (.refl _)]
  | @cast n c via e ty kind readsOperand readsType _ ih =>
    cases hm with
    | cast kind' readsOperand' readsType' he =>
    have operand := readSame_node hnc hmc readsOperand readsOperand' (ih he)
    have type := Node.ReadSame.optionalMember readsType readsType'
    refine sameText_of_fields hnc.here hmc.here kind kind' ?_
    cases via <;> simp [Conversion.kind, operand, type]
  | assign kind readsTarget readsValue targetKind readsName readsIndex readsType _ ih =>
    cases hm with
    | assign kind' readsTarget' readsValue' targetKind' readsName' readsIndex' readsType' hv =>
    have target := readSame_node hnc hmc readsTarget readsTarget' fun hr hs => by
      have index := Node.ReadSame.none readsIndex readsIndex'
      exact sameText_ref hr hs targetKind targetKind' readsName readsName' readsType readsType' index
    have value := readSame_node hnc hmc readsValue readsValue' (ih hv)
    exact sameText_of_fields hnc.here hmc.here kind kind' (by simp [target, value])
  | store kind readsTarget readsValue targetKind readsName readsIndex readsType _ _ ihi ihv =>
    cases hm with
    | store kind' readsTarget' readsValue' targetKind' readsName' readsIndex' readsType' hi hv =>
    have target := readSame_node hnc hmc readsTarget readsTarget' fun hr hs => by
      have index := readSame_optionalNode hr hs readsIndex readsIndex' (ihi hi)
      exact sameText_ref hr hs targetKind targetKind' readsName readsName' readsType readsType' index
    have value := readSame_node hnc hmc readsValue readsValue' (ihv hv)
    exact sameText_of_fields hnc.here hmc.here kind kind' (by simp [target, value])
  | @block n ns ts kind readsBody sameLength _ ih =>
    cases hm with
    | @block _ ms _ kind' readsBody' sameLength' hs =>
    have held : ∀ {n c : Node} {ns : List Node}, n.Everywhere Node.Complete → n.get "body" = .ok (.nodeList ns) → c ∈ ns →
        c.Everywhere Node.Complete := fun hn hget hc =>
      hn.child (Node.mem_children_of_get hget (by rwa [Node.nodes_nodeList]))
    have statements := sameText_statements sameLength sameLength' (fun p hp c hc hs =>
      ih p hp hs (held hnc readsBody (List.of_mem_zip hp).1) (held hmc readsBody' hc)) hs
    have body := Node.ReadSame.of_get readsBody readsBody' statements
    exact sameText_of_fields hnc.here hmc.here kind kind' (by simp [body])
  | branch kind readsCond readsBody readsElse _ _ ihc ihb =>
    cases hm with
    | branch kind' readsCond' readsBody' readsElse' hc hb =>
    have cond := readSame_node hnc hmc readsCond readsCond' (ihc hc)
    have body := readSame_node hnc hmc readsBody readsBody' (ihb hb)
    have elseBody := Node.ReadSame.none readsElse readsElse'
    exact sameText_of_fields hnc.here hmc.here kind kind' (by simp [cond, body, elseBody])
  | branchElse kind readsCond readsBody readsElse _ _ _ ihc ihb ihe =>
    cases hm with
    | branchElse kind' readsCond' readsBody' readsElse' hc hb he =>
    have cond := readSame_node hnc hmc readsCond readsCond' (ihc hc)
    have body := readSame_node hnc hmc readsBody readsBody' (ihb hb)
    have elseBody := readSame_optionalNode hnc hmc readsElse readsElse' (ihe he)
    exact sameText_of_fields hnc.here hmc.here kind kind' (by simp [cond, body, elseBody])
  | loop kind readsVar readsMin readsMax readsBody _ _ _ ihl ihu ihb =>
    cases hm with
    | loop kind' readsVar' readsMin' readsMax' readsBody' hl hu hb =>
    have var := Node.ReadSame.str readsVar readsVar'
    have min := readSame_node hnc hmc readsMin readsMin' (ihl hl)
    have max := readSame_node hnc hmc readsMax readsMax' (ihu hu)
    have body := readSame_node hnc hmc readsBody readsBody' (ihb hb)
    exact sameText_of_fields hnc.here hmc.here kind kind' (by simp [var, min, max, body])
  | ret kind readsValue readsType _ ih =>
    cases hm with
    | ret kind' readsValue' readsType' hv =>
    have value := readSame_node hnc hmc readsValue readsValue' (ih hv)
    have type := Node.ReadSame.optionalMember readsType readsType'
    exact sameText_of_fields hnc.here hmc.here kind kind' (by simp [value, type])
  | funcDef kind readsName readsArgs readsTypes typesOf readsReturn readsBody _ ih =>
    cases hm with
    | funcDef kind' readsName' readsArgs' readsTypes' typesOf' readsReturn' readsBody' hb =>
    have name := Node.ReadSame.str readsName readsName'
    have args := Node.ReadSame.of_get readsArgs readsArgs' (.refl _)
    have types := Node.ReadSame.of_get readsTypes readsTypes' (.list (sameText_types typesOf typesOf'))
    have returnType := Node.ReadSame.member readsReturn readsReturn'
    have body := readSame_node hnc hmc readsBody readsBody' (ih hb)
    exact sameText_of_fields hnc.here hmc.here kind kind' (by simp [name, args, types, returnType, body])

end TypedTree.Expr
