import TypedTree.Proofs.Expr.Repetition

/-! Blocks are lists of statements and nothing more. The statements of a block are typed one after the other, each in
    the table that the one before leaves, so a beginning of the block is typed as it is in the whole block, and a block
    inside a block is typed as its statements would be in its place: names have no scope but the program. -/

namespace TypedTree.Expr

/-- `b` is a block of the language with the statements `ns`. -/
structure BlockOf (ns : List Node) (b : Node) : Prop where
  builtFrom : b.BuiltFrom variants
  kind : b.variant = Kind.block.variant
  body : b.get "body" = .ok (.nodeList ns)

/-! ### Terms -/

section Terms
variable {R : Option Ty} {G G' : SymbolTable} {ts us : List Term}

/-- The typed forms of the statements of two lists, those of the first list before those of the second. -/
def Term.checkBoth (R : Option Ty) (ts us : List Term) : InferM (List Term × List Term) := do
  let ts ← checkAll R ts
  let us ← checkAll R us
  pure (ts, us)

theorem checkAll_append (R : Option Ty) (ts us : List Term) :
    Term.checkAll R (ts ++ us) = (fun p => p.1 ++ p.2) <$> Term.checkBoth R ts us := by
  rw [Term.checkBoth]
  induction ts with
  | nil => simp [Term.checkAll]
  | cons t ts ih => simp [Term.checkAll, ih]

theorem check_block (R : Option Ty) (ts : List Term) : (Term.block ts).check R = .block <$> Term.checkAll R ts := by
  rw [Term.check]
  simp

theorem check_block_nested (R : Option Ty) (ts us : List Term) :
    (Term.block [.block ts, .block us]).check R = (fun p => .block [.block p.1, .block p.2]) <$> Term.checkBoth R ts us := by
  simp [Term.check, Term.checkAll, Term.checkBoth]

/-- What the mentions add to a table comes after what is in it. -/
theorem Follows.listed {ms : List Mention} (h : Follows G ms G') : G.toList <+: G'.toList := by
  induction h with
  | nil => exact List.prefix_rfl
  | read _ _ ih => exact ih
  | declared accepted _ ih =>
    refine List.IsPrefix.trans ?_ ih
    obtain ⟨-, rfl⟩ | ⟨hnew, rfl⟩ := SymbolTable.declare_inv accepted
    · exact List.prefix_rfl
    · rw [SymbolTable.toList, SymbolTable.toList, OrderedMap.insertNew, dif_neg (OrderedMap.get?_eq_none_iff.mp hnew)]
      exact List.prefix_append _ _

theorem run_checkBoth {ts' us' : List Term} : (Term.checkBoth R ts us).run G = .ok ((ts', us'), G') ↔
    ∃ H, (Term.checkAll R ts).run G = .ok (ts', H) ∧ (Term.checkAll R us).run H = .ok (us', G') := by
  rw [Term.checkBoth, run_bind_eq_ok]
  constructor
  · rintro ⟨_, H, hts, h⟩
    obtain ⟨_, _, hus, h⟩ := run_bind_eq_ok.mp h
    cases h
    exact ⟨H, hts, hus⟩
  · rintro ⟨H, hts, hus⟩
    exact ⟨ts', H, hts, run_bind_eq_ok.mpr ⟨us', G', hus, rfl⟩⟩

theorem length_checkAll (h : (Term.checkAll R ts).run G = .ok (us, G')) : us.length = ts.length := by
  induction ts generalizing G us with
  | nil =>
    rw [Term.checkAll] at h
    cases h
    rfl
  | cons t ts ih =>
    rw [Term.checkAll] at h
    obtain ⟨u, H, -, h⟩ := run_bind_eq_ok.mp h
    obtain ⟨us, _, hus, h⟩ := run_bind_eq_ok.mp h
    cases h
    exact congrArg (· + 1) (ih hus)

theorem listed_checkAll (h : (Term.checkAll R ts).run G = .ok (us, G')) : G.toList <+: G'.toList :=
  (infers_iff.mpr (run_block.mpr h)).follows.listed

end Terms

/-! ### Trees -/

namespace BlockOf
variable {ns ms : List Node} {b : Node} {ts : List Term}

theorem statements (h : BlockOf ns b) : ∀ n ∈ ns, n.BuiltFrom variants := fun n hn =>
  h.builtFrom.of_get h.body (by rwa [Node.nodes_nodeList])

theorem exists_spells (h : BlockOf ns b) : ∃ ts, List.Forall₂ Spells ns ts := by
  obtain ⟨ts, hlen, hts⟩ := exists_terms fun n hn => Expr.exists_spells n (h.statements n hn)
  exact ⟨ts, List.forall₂_iff_zip.mpr ⟨hlen, fun hp => hts _ hp⟩⟩

theorem spells (h : BlockOf ns b) (hs : List.Forall₂ Spells ns ts) : Spells b (.block ts) :=
  .block h.kind h.body hs.length_eq fun _ hp => List.forall₂_zip hs hp

theorem of_spells (hb : b.BuiltFrom variants) (hs : Spells b (.block ts)) : ∃ ns, BlockOf ns b ∧ List.Forall₂ Spells ns ts := by
  cases hs with
  | @block _ ns _ kind readsBody sameLength spellsBody =>
    exact ⟨ns, ⟨hb, kind, readsBody⟩, List.forall₂_iff_zip.mpr ⟨sameLength, fun hp => spellsBody _ hp⟩⟩

end BlockOf

/-- Statements that spell the same terms have the same documents. -/
theorem canonicalJson_of_spells {ns ms : List Node} {ts : List Term} (hns : List.Forall₂ Spells ns ts)
    (hms : List.Forall₂ Spells ms ts) (hn : ∀ n ∈ ns, n.BuiltFrom variants) (hm : ∀ m ∈ ms, m.BuiltFrom variants) :
    ns.map Node.canonicalJson = ms.map Node.canonicalJson := by
  induction hns generalizing ms with
  | nil =>
    cases hms
    rfl
  | @cons n t ns ts hnt _ ih =>
    obtain _ | ⟨hmt, hms⟩ := hms
    rw [List.forall_mem_cons] at hn hm
    rw [List.map_cons, List.map_cons, ih hms hn.2 hm.2,
      (hnt.sameText hmt hn.1.complete hm.1.complete).canonicalJson]

/-! ### Programs -/

section Programs
variable {xs ys : List Node} {whole first second nested : Node} {ts us : List Term}

theorem analyze_block (h : BlockOf xs first) (hts : List.Forall₂ Spells xs ts) (w : Workspace) :
    Agrees (fun typed p => typed.symbols = p.2 ∧ ∃ ms, BlockOf ms typed.tree ∧ List.Forall₂ Spells ms p.1)
      (built (Typing.analyze first) w).1 ((Term.checkAll none ts).run .empty) := by
  have hagrees := analyze_agrees h.builtFrom (h.spells hts) w
  rw [check_block, StateT.run_map] at hagrees
  exact hagrees.of_map.mono fun typed p ⟨hrw, hsymbols⟩ => ⟨hsymbols, BlockOf.of_spells hrw.builtFrom hrw.spells⟩

theorem analyze_nested (hfirst : BlockOf xs first) (hsecond : BlockOf ys second) (h : BlockOf [first, second] nested)
    (hts : List.Forall₂ Spells xs ts) (hus : List.Forall₂ Spells ys us) (w : Workspace) :
    Agrees (fun typed p => typed.symbols = p.2 ∧ ∃ a b ms ks, BlockOf [a, b] typed.tree ∧ BlockOf ms a ∧ BlockOf ks b ∧
        List.Forall₂ Spells ms p.1.1 ∧ List.Forall₂ Spells ks p.1.2)
      (built (Typing.analyze nested) w).1 ((Term.checkBoth none ts us).run .empty) := by
  have hinner : Spells nested (.block [.block ts, .block us]) :=
    h.spells (.cons (hfirst.spells hts) (.cons (hsecond.spells hus) .nil))
  have hagrees := analyze_agrees h.builtFrom hinner w
  rw [check_block_nested, StateT.run_map] at hagrees
  refine hagrees.of_map.mono fun typed p ⟨hrw, hsymbols⟩ => ⟨hsymbols, ?_⟩
  obtain ⟨inner, hinner, hspells⟩ := BlockOf.of_spells hrw.builtFrom hrw.spells
  obtain _ | ⟨ha, _ | ⟨hb, ⟨⟩⟩⟩ := hspells
  rename_i a b
  obtain ⟨ms, hms, hmsSpells⟩ := BlockOf.of_spells (hinner.statements a (by simp)) ha
  obtain ⟨ks, hks, hksSpells⟩ := BlockOf.of_spells (hinner.statements b (by simp)) hb
  exact ⟨a, b, ms, ks, hinner, hms, hks, hmsSpells, hksSpells⟩

/-- Typing is a walk over the statements. If a block is accepted, so is every beginning of it, with a symbol table that
    begins the one of the whole block, and its statements are typed as in the whole block. And to put the statements of
    a block into two blocks inside it changes nothing: the error, the symbol table and the typed statements are the
    same. -/
theorem analyze_compositional (hwhole : BlockOf (xs ++ ys) whole) (hfirst : BlockOf xs first)
    (hsecond : BlockOf ys second) (hnested : BlockOf [first, second] nested) (w v : Workspace) :
    (∀ typed w', built (Typing.analyze whole) w = (.ok typed, w') →
      ∃ part v', built (Typing.analyze first) v = (.ok part, v') ∧ part.symbols.toList <+: typed.symbols.toList ∧
        ∃ ms ns, BlockOf ms part.tree ∧ BlockOf ns typed.tree ∧ ms.length = xs.length ∧
          ms.map Node.canonicalJson = (ns.take xs.length).map Node.canonicalJson) ∧
    Agrees (fun typed typed' => typed'.symbols = typed.symbols ∧
        ∃ ns a b ms ks, BlockOf ns typed.tree ∧ BlockOf [a, b] typed'.tree ∧ BlockOf ms a ∧ BlockOf ks b ∧
          ms.length = xs.length ∧ ks.length = ys.length ∧
          (ms ++ ks).map Node.canonicalJson = ns.map Node.canonicalJson)
      (built (Typing.analyze whole) w).1 (built (Typing.analyze nested) v).1 := by
  obtain ⟨ts, hts⟩ := hfirst.exists_spells
  obtain ⟨us, hus⟩ := hsecond.exists_spells
  have hall := analyze_block hwhole (List.rel_append hts hus) w
  rw [checkAll_append, StateT.run_map] at hall
  replace hall := hall.of_map
  have hsplit := analyze_nested hfirst hsecond hnested hts hus v
  -- Both blocks are typed by typing the statements of the two lists, and differ in what is made of them.
  cases hboth : (Term.checkBoth none ts us).run .empty with
  | error e =>
    rw [hboth] at hall hsplit
    refine ⟨fun typed w' h => ?_, ?_⟩
    · rw [h] at hall
      cases hall.error_inv
    · rw [hall.error_inv, hsplit.error_inv]
      rfl
  | ok p =>
    obtain ⟨⟨ts', us'⟩, G'⟩ := p
    rw [hboth] at hall hsplit
    obtain ⟨typed, hrun, hsymbols, ns, hns, hnsSpells⟩ := hall.ok_inv
    obtain ⟨typed', hrun', hsymbols', a, b, ms, ks, hab, hms, hks, hmsSpells, hksSpells⟩ := hsplit.ok_inv
    obtain ⟨G, hfirstRun, hsecondRun⟩ := run_checkBoth.mp hboth
    have hlenFirst : ts'.length = xs.length := (length_checkAll hfirstRun).trans hts.length_eq.symm
    have hlenSecond : us'.length = ys.length := (length_checkAll hsecondRun).trans hus.length_eq.symm
    constructor
    · intro other w' h
      rw [h] at hrun
      cases hrun
      obtain ⟨part, hpart, hsymbolsPart, ms, hms, hmsSpells⟩ := (hfirstRun ▸ analyze_block hfirst hts v).ok_inv
      refine ⟨part, _, Prod.ext hpart rfl, ?_, ms, ns, hms, hns, hmsSpells.length_eq.trans hlenFirst, ?_⟩
      · rw [hsymbolsPart, hsymbols]
        exact listed_checkAll hsecondRun
      · rw [← hlenFirst]
        exact canonicalJson_of_spells hmsSpells (List.forall₂_take_append ns ts' us' hnsSpells) hms.statements
          fun n hn => hns.statements n (List.mem_of_mem_take hn)
    · rw [hrun, hrun']
      refine ⟨hsymbols'.trans hsymbols.symm, ns, a, b, ms, ks, hns, hab, hms, hks, hmsSpells.length_eq.trans hlenFirst,
        hksSpells.length_eq.trans hlenSecond, ?_⟩
      exact canonicalJson_of_spells (List.rel_append hmsSpells hksSpells) hnsSpells
        (List.forall_mem_append.mpr ⟨hms.statements, hks.statements⟩) hns.statements

end Programs

/-! ### Two programs in one -/

theorem built_blockOf {ns : List Node} (hns : ∀ n ∈ ns, n.BuiltFrom variants ∧ n.isA "Stmt" = true) (w : Workspace) :
    ∃ b w', built (block ns) w = (.ok b, w') ∧ BlockOf ns b := by
  obtain ⟨b, w', hrun, hb, kind, body⟩ := built_block hns w
  exact ⟨b, w', hrun, hb, kind, body⟩

/-- `flag := true` -/
def raiseFlag : Node :=
  .mk 17 Kind.assign.variant [
    .node (.mk 15 Kind.ref.variant [.str "flag", .absent, .absent]),
    .node (.mk 16 Kind.boolConst.variant [.bool true, .absent])]

theorem raiseFlag_builtFrom : raiseFlag.BuiltFrom variants := by decide

/-- The loop and the function come first, then an assignment. -/
theorem analyze_compositional_raiseFlag : ∃ whole first second nested, BlockOf [tally, raiseFlag] whole ∧
    BlockOf [tally] first ∧ BlockOf [raiseFlag] second ∧ BlockOf [first, second] nested ∧
    ∃ typed part typed', (built (Typing.analyze whole) {}).1 = .ok typed ∧
      (built (Typing.analyze first) {}).1 = .ok part ∧ (built (Typing.analyze nested) {}).1 = .ok typed' ∧
      typed.symbols.toList = [("i", .int), ("total", .intArray), ("x", .float), ("flag", .bool)] ∧
      part.symbols.toList <+: typed.symbols.toList ∧ typed'.symbols = typed.symbols := by
  have htally : ∀ n ∈ [tally], n.BuiltFrom variants ∧ n.isA "Stmt" = true :=
    List.forall_mem_singleton.mpr ⟨tally_builtFrom, rfl⟩
  have hraise : ∀ n ∈ [raiseFlag], n.BuiltFrom variants ∧ n.isA "Stmt" = true :=
    List.forall_mem_singleton.mpr ⟨raiseFlag_builtFrom, rfl⟩
  obtain ⟨whole, -, -, hwhole⟩ := built_blockOf (List.forall_mem_append.mpr ⟨htally, hraise⟩) {}
  obtain ⟨first, -, -, hfirst⟩ := built_blockOf htally {}
  obtain ⟨second, -, -, hsecond⟩ := built_blockOf hraise {}
  have hblocks : ∀ n ∈ [first, second], n.BuiltFrom variants ∧ n.isA "Stmt" = true := by
    simp only [List.forall_mem_cons, isA_of_variant hfirst.kind, isA_of_variant hsecond.kind]
    exact ⟨⟨hfirst.builtFrom, rfl⟩, ⟨hsecond.builtFrom, rfl⟩, by simp⟩
  obtain ⟨nested, -, -, hnested⟩ := built_blockOf hblocks {}
  have hspells : Spells raiseFlag (.assign "flag" none (.const (.bool true) none)) :=
    .assign rfl rfl rfl rfl rfl rfl rfl (.const rfl rfl rfl)
  obtain ⟨typed, hrun, hsymbols, -⟩ := (analyze_block hwhole (.cons tally_spells (.cons hspells .nil)) {}).ok_inv
  obtain ⟨hbeginning, hsplit⟩ := analyze_compositional hwhole hfirst hsecond hnested {} {}
  obtain ⟨part, v', hpart, hlisted, -⟩ := hbeginning typed _ (Prod.ext hrun rfl)
  rw [hrun] at hsplit
  obtain ⟨typed', hrun', hsame, -⟩ := hsplit.ok_left_inv
  refine ⟨whole, first, second, nested, hwhole, hfirst, hsecond, hnested, typed, part, typed', hrun,
    congrArg Prod.fst hpart, hrun', ?_, hlisted, hsame⟩
  rw [hsymbols]
  rfl

end TypedTree.Expr
