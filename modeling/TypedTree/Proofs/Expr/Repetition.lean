import TypedTree.Proofs.Expr.Declarations
import TypedTree.Proofs.Expr.StaleTypes

/-! Typing a statement a second time. A typing that succeeds needs no more of the table than what is in it in the end,
    and declares nothing that is not in it then. So it succeeds from every table that agrees with that one, leaves the
    table as it is and gives the same term: a statement may be repeated, and the second time changes nothing. -/

namespace TypedTree.Expr
variable {R : Option Ty} {F G G' : SymbolTable} {t u : Term}

/-! ### Tables that hold all declarations -/

theorem SymbolTable.declare_of_get? {name : String} {ty : Ty} (h : F.get? name = some ty) : F.declare name ty = .ok F := by
  rw [declare, h]
  exact if_pos rfl

theorem SymbolTable.Extends.declare_again {name : String} {ty : Ty} (hF : F.Extends G') (h : G.declare name ty = .ok G') :
    F.declare name ty = .ok F := declare_of_get? (hF _ _ (declare_extends h).2)

theorem run_declareAll_again {pairs : List (String × Ty)} (hF : F.Extends G')
    (h : (declareAll pairs).run G = .ok ((), G')) : (declareAll pairs).run F = .ok ((), F) := by
  induction pairs generalizing G with
  | nil => rfl
  | cons a pairs ih =>
    obtain ⟨_, H, hd, hrest⟩ := run_bind_eq_ok.mp h
    have hH : F.Extends H := hF.trans (run_declareAll_spec hrest).1
    exact run_bind_eq_ok.mpr ⟨(), F, run_declare.mpr (hH.declare_again (run_declare.mp hd)), ih hrest⟩

/-- A table that agrees with the one at the end serves for the whole typing, and stays as it is. -/
theorem Infers.again (h : Infers R G t u G') (hF : F.Extends G') : Infers R F t u F := by
  -- Nothing is declared any more, so all premises hold in the one table `F`.
  induction h with
  | binOp _ hr hlt hrt operands hl' hr' ihl ihr =>
    exact .binOp (ihl (hF.trans hr.grows)) (ihr hF) hlt hrt operands hl' hr'
  | cmpOp _ hr hlt hrt operands hl' hr' ihl ihr =>
    exact .cmpOp (ihl (hF.trans hr.grows)) (ihr hF) hlt hrt operands hl' hr'
  | unOp _ hfound hv ih => exact .unOp (ih hF) hfound hv
  | var looksUp => exact .var (hF _ _ looksUp)
  | element looksUp hi hint harray ih => exact .element (hF _ _ (hi.grows _ _ looksUp)) (ih hF) hint harray
  | const => exact .const
  | cast _ hv ih => exact .cast (ih hF) hv
  | assign _ htype hscalar declares ih =>
    have hH := hF.trans (SymbolTable.declare_extends declares).1
    exact .assign (ih hH) htype hscalar (hF.declare_again declares)
  | store _ htype hscalar hi hint harray declares ihv ihi =>
    have hK := hF.trans (SymbolTable.declare_extends declares).1
    exact .store (ihv (hK.trans hi.grows)) htype hscalar (ihi hK) hint harray (hF.declare_again declares)
  | done => exact .done
  | next _ hs ih ihs => exact .next (ih (hF.trans hs.grows)) (ihs hF)
  | branch _ hb ihc ihb => exact .branch (ihc (hF.trans hb.grows)) (ihb hF)
  | branchElse _ hb he ihc ihb ihe =>
    have hK := hF.trans he.grows
    exact .branchElse (ihc (hK.trans hb.grows)) (ihb hK) (ihe hF)
  | loop _ hlint hu huint declares hb ihl ihu ihb =>
    have hL := hF.trans hb.grows
    have hK := hL.trans (SymbolTable.declare_extends declares).1
    exact .loop (ihl (hK.trans hu.grows)) hlint (ihu hK) huint (hL.declare_again declares) (ihb hF)
  | ret _ htype ih => exact .ret (ih hF) htype
  | funcDef arity declares hb ih => exact .funcDef arity (run_declareAll_again (hF.trans hb.grows) declares) (ih hF)

/-! ### Blocks of two statements -/

/-- A block of statements of the language is built. -/
theorem built_block {ns : List Node} (hns : ∀ n ∈ ns, n.BuiltFrom variants ∧ n.isA "Stmt" = true) (w : Workspace) :
    ∃ b w', built (block ns) w = (.ok b, w') ∧ b.BuiltFrom variants ∧ b.variant = Kind.block.variant ∧
      b.get "body" = .ok (.nodeList ns) := by
  have hadm : (FieldType.list (.node "Stmt")).admits (.nodeList ns) = true :=
    FieldType.admits_nodes_iff.mpr ⟨ns, rfl, fun n hn => (hns n hn).2⟩
  have harrange : Kind.block.variant.arrange [("body", .nodeList ns)] = .ok [.nodeList ns] := by
    show [((⟨"body", .list (.node "Stmt")⟩ : Field), some (Value.nodeList ns))].mapM
      (fun p => Kind.block.variant.settle p.1 p.2) = _
    simp only [List.mapM_cons, List.mapM_nil, Variant.settle, Field.checked, hadm, if_true]
    rfl
  refine ⟨.mk w.nextId Kind.block.variant [.nodeList ns], { w with nextId := w.nextId + 1 }, ?_, ?_, rfl, rfl⟩
  · rw [block, Variant.build, harrange]
    rfl
  · refine Node.builtFrom_iff.mpr ⟨⟨List.mem_map_of_mem (Enumerated.mem_all Kind.block), .cons hadm .nil⟩, ?_⟩
    exact List.forall_mem_singleton.mpr (Value.builtFrom_nodeList.mpr fun n hn => (hns n hn).1)

/-- A statement that is accepted may be followed by itself, or by one that is the same but for its types: the block of
    both is accepted with the symbol table of the first, and each is typed in it as the first is alone. -/
theorem analyze_twice {p q : Node} (hp : p.BuiltFrom variants) (hstmt : p.isA "Stmt" = true) (hq : q.BuiltFrom variants)
    (hs : p.sameBut "type" q = true) {w w' : Workspace} {typed : Typing.Typed}
    (h : built (Typing.analyze p) w = (.ok typed, w')) (v : Workspace) :
    ∃ b v', built (block [p, q]) v = (.ok b, v') ∧ ∀ z, ∃ again z', built (Typing.analyze b) z = (.ok again, z') ∧
      again.symbols = typed.symbols ∧ again.tree.variant = Kind.block.variant ∧
      ∃ x y, again.tree.get "body" = .ok (.nodeList [x, y]) ∧ x.canonicalJson = typed.tree.canonicalJson ∧
        y.canonicalJson = typed.tree.canonicalJson := by
  obtain ⟨t, ht⟩ := exists_spells p hp
  -- The terms of the two statements are typed alike, so the typing of the first one is repeated in its own table.
  obtain ⟨t', ht', same⟩ := ht.exists_alike hq hs
  have hfirst := analyze_agrees hp ht w
  rw [h] at hfirst
  obtain ⟨⟨u, G⟩, hcheck, hrw, hsymbols⟩ := hfirst.ok_left_inv
  have first : Infers none .empty t u G := infers_iff.mpr hcheck
  have second : Infers none G t' u G := infers_iff.mpr (same none ▸ (first.again (.refl G)).run)
  have both : Infers none .empty (.block [t, t']) (.block [u, u]) G := .next first (.next second .done)
  have hstmt' : q.isA "Stmt" = true := by rwa [Node.isA, Node.variant_of_sameBut hs]
  have hstmts : ∀ n ∈ [p, q], n.BuiltFrom variants ∧ n.isA "Stmt" = true := by simp [hp, hq, hstmt, hstmt']
  obtain ⟨b, v', hb, hbuilt, kind, readsBody⟩ := built_block hstmts v
  have hspells : Spells b (.block [t, t']) := .block kind readsBody rfl (by simp [ht, ht'])
  refine ⟨b, v', hb, fun z => ?_⟩
  have hboth := analyze_agrees hbuilt hspells z
  rw [both.run] at hboth
  obtain ⟨again, hrun, hrw', hsymbols'⟩ := hboth.ok_inv
  refine ⟨again, _, Prod.ext hrun rfl, hsymbols'.trans hsymbols.symm, hrw'.spells.variant, ?_⟩
  cases hrw'.spells with
  | block _ reads sameLength spellsBody =>
  obtain ⟨x, y, rfl⟩ := List.length_eq_two.mp sameLength
  have text : ∀ c ∈ [x, y], Spells c u → c.canonicalJson = typed.tree.canonicalJson := fun c hc hcu => by
    have hcb : c.BuiltFrom variants := hrw'.builtFrom.of_get reads (by rwa [Node.nodes_nodeList])
    exact (hcu.sameText hrw.spells hcb.complete hrw.builtFrom.complete).canonicalJson
  exact ⟨x, y, reads, text x (by simp) (spellsBody (x, u) (by simp)), text y (by simp) (spellsBody (y, u) (by simp))⟩

/-- The loop and the function, once more: the very same node stands in the block twice. -/
theorem analyze_twice_tally : tally.BuiltFrom variants ∧ tally.isA "Stmt" = true ∧ tally.sameBut "type" tally = true ∧
    ∃ typed w', built (Typing.analyze tally) {} = (.ok typed, w') ∧
      typed.symbols.toList = [("i", .int), ("total", .intArray), ("x", .float)] ∧
      ∃ b v', built (block [tally, tally]) w' = (.ok b, v') ∧ ∃ again z', built (Typing.analyze b) v' = (.ok again, z') ∧
        again.symbols = typed.symbols ∧ again.tree.variant = Kind.block.variant ∧
        ∃ x y, again.tree.get "body" = .ok (.nodeList [x, y]) ∧ x.canonicalJson = typed.tree.canonicalJson ∧
          y.canonicalJson = typed.tree.canonicalJson := by
  have hself : tally.sameBut "type" tally = true := Node.sameBut_self tally tally_builtFrom.complete
  obtain ⟨typed, hrun, -, hsymbols⟩ := Agrees.ok_inv (analyze_agrees tally_builtFrom tally_spells {})
  have hbuilt : built (Typing.analyze tally) {} = (.ok typed, (built (Typing.analyze tally) {}).2) := Prod.ext hrun rfl
  obtain ⟨b, v', hb, hall⟩ := analyze_twice tally_builtFrom rfl tally_builtFrom hself hbuilt _
  refine ⟨tally_builtFrom, rfl, hself, typed, _, hbuilt, ?_, b, v', hb, hall v'⟩
  rw [hsymbols]
  rfl

end TypedTree.Expr
