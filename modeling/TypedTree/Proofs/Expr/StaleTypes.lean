import TypedTree.Proofs.Expr.Soundness
import TypedTree.Proofs.Expr.Writing
import TypedTree.Proofs.Tree.SameBut

/-! Types that a program carries before it is typed. Typing writes a type over every one it finds before it reads any,
    so programs that are the same but for their types are typed alike: with one outcome, error or symbol table and
    text. On terms this is plain, as no rule looks at the type of the term it is for; trees are brought to their terms
    first. -/

namespace TypedTree.Expr
variable {n m : Node} {t : Term}

/-! ### Trees that are the same but for their types -/

section Fields
variable {name : String}

/-- What is read from one of two such trees is read from the other, as a term that is typed alike. -/
theorem exists_alikeChild {c : Node} (hm : m.BuiltFrom variants) (hs : n.sameBut "type" m = true)
    (hn : n.getNode name = .ok c)
    (ih : ∀ {d : Node}, d.BuiltFrom variants → c.sameBut "type" d = true → ∃ u, Spells d u ∧ ∀ R, u.check R = t.check R)
    (hname : name ≠ "type" := by decide) :
    ∃ d u, m.getNode name = .ok d ∧ Spells d u ∧ ∀ R, u.check R = t.check R := by
  obtain ⟨d, hd, hsame⟩ := Node.getNode_of_sameBut hs hn hname
  obtain ⟨u, hu, hcheck⟩ := ih (hm.child (Node.mem_children_of_getNode hd)) hsame
  exact ⟨d, u, hd, hu, hcheck⟩

theorem exists_alikeOptional {c : Node} (hm : m.BuiltFrom variants) (hs : n.sameBut "type" m = true)
    (hn : n.getNode? name = .ok (some c))
    (ih : ∀ {d : Node}, d.BuiltFrom variants → c.sameBut "type" d = true → ∃ u, Spells d u ∧ ∀ R, u.check R = t.check R)
    (hname : name ≠ "type" := by decide) :
    ∃ d u, m.getNode? name = .ok (some d) ∧ Spells d u ∧ ∀ R, u.check R = t.check R := by
  obtain ⟨d, hd, hsame⟩ := Node.getNode?_of_sameBut hs hn hname
  obtain ⟨u, hu, hcheck⟩ := ih (hm.child (Node.mem_children_of_getNode? hd)) hsame
  exact ⟨d, u, hd, hu, hcheck⟩

end Fields

theorem exists_alikeAll {ns ms : List Node} {ts : List Term} (hlen : ns.length = ts.length)
    (hm : ∀ m ∈ ms, m.BuiltFrom variants) (hs : List.Forall₂ (fun n m => Node.sameBut "type" n m = true) ns ms)
    (ih : ∀ p ∈ ns.zip ts, ∀ {m : Node}, m.BuiltFrom variants → p.1.sameBut "type" m = true →
      ∃ u, Spells m u ∧ ∀ R, u.check R = p.2.check R) :
    ∃ us, ms.length = us.length ∧ (∀ p ∈ ms.zip us, Spells p.1 p.2) ∧ ∀ R, Term.checkAll R us = Term.checkAll R ts := by
  induction hs generalizing ts with
  | nil =>
    obtain rfl := List.eq_nil_of_length_eq_zero hlen.symm
    exact ⟨[], rfl, by simp, fun _ => rfl⟩
  | cons hnm _ ihs =>
    obtain ⟨t, ts, rfl⟩ := List.exists_cons_of_length_eq_add_one hlen.symm
    rw [List.zip_cons_cons, List.forall_mem_cons] at ih
    rw [List.forall_mem_cons] at hm
    obtain ⟨u, hu, hcheck⟩ := ih.1 hm.1 hnm
    obtain ⟨us, hlen', hus, hchecks⟩ := ihs (Nat.succ.inj hlen) hm.2 ih.2
    refine ⟨u :: us, congrArg (· + 1) hlen', ?_, fun R => ?_⟩
    · rw [List.zip_cons_cons, List.forall_mem_cons]
      exact ⟨hu, hus⟩
    · rw [Term.checkAll, Term.checkAll, hcheck, hchecks]

/-- A tree that is the same but for its types is written out as a term that is typed alike. -/
theorem Spells.exists_alike (h : Spells n t) (hm : m.BuiltFrom variants) (hs : n.sameBut "type" m = true) :
    ∃ u, Spells m u ∧ ∀ R, u.check R = t.check R := by
  induction h generalizing m with
  | binOp kind readsOp readsLeft readsRight _ _ _ ihl ihr =>
    have hk := (Node.variant_of_sameBut hs).trans kind
    obtain ⟨_, left, hl, hleft, sameLeft⟩ := exists_alikeChild hm hs readsLeft ihl
    obtain ⟨_, right, hr, hright, sameRight⟩ := exists_alikeChild hm hs readsRight ihr
    obtain ⟨ty, hty⟩ := exists_typeOf hm.fits (by rw [hk]; rfl)
    refine ⟨_, .binOp hk (Node.getMember_of_sameBut hs readsOp) hl hr hty hleft hright, fun R => ?_⟩
    rw [Term.check, Term.check, sameLeft, sameRight]
  | cmpOp kind readsOp readsLeft readsRight _ _ _ ihl ihr =>
    have hk := (Node.variant_of_sameBut hs).trans kind
    obtain ⟨_, left, hl, hleft, sameLeft⟩ := exists_alikeChild hm hs readsLeft ihl
    obtain ⟨_, right, hr, hright, sameRight⟩ := exists_alikeChild hm hs readsRight ihr
    obtain ⟨ty, hty⟩ := exists_typeOf hm.fits (by rw [hk]; rfl)
    refine ⟨_, .cmpOp hk (Node.getMember_of_sameBut hs readsOp) hl hr hty hleft hright, fun R => ?_⟩
    rw [Term.check, Term.check, sameLeft, sameRight]
  | unOp kind readsOp readsOperand _ _ ih =>
    have hk := (Node.variant_of_sameBut hs).trans kind
    obtain ⟨_, e, he, hspells, same⟩ := exists_alikeChild hm hs readsOperand ih
    obtain ⟨ty, hty⟩ := exists_typeOf hm.fits (by rw [hk]; rfl)
    refine ⟨_, .unOp hk (Node.getMember_of_sameBut hs readsOp) he hty hspells, fun R => ?_⟩
    rw [Term.check, Term.check, same]
  | var kind readsName readsIndex _ =>
    have hk := (Node.variant_of_sameBut hs).trans kind
    obtain ⟨ty, hty⟩ := exists_typeOf hm.fits (by rw [hk]; rfl)
    refine ⟨_, .var hk (Node.getStr_of_sameBut hs readsName) (Node.getNode?_none_of_sameBut hs readsIndex) hty, fun R => ?_⟩
    rw [Term.check, Term.check]
  | element kind readsName readsIndex _ _ ih =>
    have hk := (Node.variant_of_sameBut hs).trans kind
    obtain ⟨_, index, hi, hindex, same⟩ := exists_alikeOptional hm hs readsIndex ih
    obtain ⟨ty, hty⟩ := exists_typeOf hm.fits (by rw [hk]; rfl)
    refine ⟨_, .element hk (Node.getStr_of_sameBut hs readsName) hi hty hindex, fun R => ?_⟩
    rw [Term.check, Term.check, same]
  | @const n c _ kind holds _ =>
    have hk := (Node.variant_of_sameBut hs).trans kind
    obtain ⟨ty, hty⟩ := exists_typeOf hm.fits (by rw [hk]; cases c <;> rfl)
    refine ⟨.const c ty, .const hk ?_ hty, fun R => by rw [Term.check, Term.check]⟩
    cases c with
    | void => trivial
    | int i =>
      obtain ⟨w, hw, hsame⟩ := Node.get_of_sameBut hs (by decide) holds
      rwa [Value.eq_int_of_sameBut hsame] at hw
    | float x =>
      obtain ⟨w, hw, hsame⟩ := Node.get_of_sameBut hs (by decide) holds
      rwa [Value.eq_float_of_sameBut hsame] at hw
    | bool b =>
      obtain ⟨w, hw, hsame⟩ := Node.get_of_sameBut hs (by decide) holds
      rwa [Value.eq_bool_of_sameBut hsame] at hw
  | @cast _ _ via _ _ kind readsOperand _ _ ih =>
    have hk := (Node.variant_of_sameBut hs).trans kind
    obtain ⟨_, e, he, hspells, same⟩ := exists_alikeChild hm hs readsOperand ih
    obtain ⟨ty, hty⟩ := exists_typeOf hm.fits (by rw [hk]; cases via <;> rfl)
    refine ⟨_, .cast hk he hty hspells, fun R => ?_⟩
    rw [Term.check, Term.check, same]
  | assign kind readsTarget readsValue targetKind readsName readsIndex _ _ ih =>
    have hk := (Node.variant_of_sameBut hs).trans kind
    obtain ⟨_, val, hv, hval, same⟩ := exists_alikeChild hm hs readsValue ih
    obtain ⟨r, hr, hsr⟩ := Node.getNode_of_sameBut hs readsTarget
    have hrk := (Node.variant_of_sameBut hsr).trans targetKind
    have hrb := hm.child (Node.mem_children_of_getNode hr)
    obtain ⟨ty, hty⟩ := exists_typeOf hrb.fits (by rw [hrk]; rfl)
    refine ⟨_, .assign hk hr hv hrk (Node.getStr_of_sameBut hsr readsName) (Node.getNode?_none_of_sameBut hsr readsIndex)
      hty hval, fun R => ?_⟩
    rw [Term.check, Term.check, same]
  | store kind readsTarget readsValue targetKind readsName readsIndex _ _ _ ihi ihv =>
    have hk := (Node.variant_of_sameBut hs).trans kind
    obtain ⟨_, val, hv, hval, sameValue⟩ := exists_alikeChild hm hs readsValue ihv
    obtain ⟨r, hr, hsr⟩ := Node.getNode_of_sameBut hs readsTarget
    have hrk := (Node.variant_of_sameBut hsr).trans targetKind
    have hrb := hm.child (Node.mem_children_of_getNode hr)
    obtain ⟨_, index, hi, hindex, sameIndex⟩ := exists_alikeOptional hrb hsr readsIndex ihi
    obtain ⟨ty, hty⟩ := exists_typeOf hrb.fits (by rw [hrk]; rfl)
    refine ⟨_, .store hk hr hv hrk (Node.getStr_of_sameBut hsr readsName) hi hty hindex hval, fun R => ?_⟩
    rw [Term.check, Term.check, sameValue, sameIndex]
  | block kind readsBody sameLength _ ih =>
    have hk := (Node.variant_of_sameBut hs).trans kind
    obtain ⟨ms, hms, hsame⟩ := Node.nodeList_of_sameBut hs readsBody
    have hb : ∀ d ∈ ms, d.BuiltFrom variants := fun d hd => hm.of_get hms (by rwa [Node.nodes_nodeList])
    obtain ⟨us, hlen, hus, same⟩ := exists_alikeAll sameLength hb hsame fun p hp _ => ih p hp
    refine ⟨_, .block hk hms hlen hus, fun R => ?_⟩
    rw [Term.check, Term.check, same]
  | branch kind readsCond readsBody readsElse _ _ ihc ihb =>
    have hk := (Node.variant_of_sameBut hs).trans kind
    obtain ⟨_, cond, hc, hcond, sameCond⟩ := exists_alikeChild hm hs readsCond ihc
    obtain ⟨_, body, hb, hbody, sameBody⟩ := exists_alikeChild hm hs readsBody ihb
    refine ⟨_, .branch hk hc hb (Node.getNode?_none_of_sameBut hs readsElse) hcond hbody, fun R => ?_⟩
    rw [Term.check, Term.check, sameCond, sameBody]
  | branchElse kind readsCond readsBody readsElse _ _ _ ihc ihb ihe =>
    have hk := (Node.variant_of_sameBut hs).trans kind
    obtain ⟨_, cond, hc, hcond, sameCond⟩ := exists_alikeChild hm hs readsCond ihc
    obtain ⟨_, body, hb, hbody, sameBody⟩ := exists_alikeChild hm hs readsBody ihb
    obtain ⟨_, elseBody, he, helse, sameElse⟩ := exists_alikeOptional hm hs readsElse ihe
    refine ⟨_, .branchElse hk hc hb he hcond hbody helse, fun R => ?_⟩
    rw [Term.check, Term.check, sameCond, sameBody, sameElse]
  | loop kind readsVar readsMin readsMax readsBody _ _ _ ihl ihu ihb =>
    have hk := (Node.variant_of_sameBut hs).trans kind
    obtain ⟨_, min, hl, hmin, sameMin⟩ := exists_alikeChild hm hs readsMin ihl
    obtain ⟨_, max, hu, hmax, sameMax⟩ := exists_alikeChild hm hs readsMax ihu
    obtain ⟨_, body, hb, hbody, sameBody⟩ := exists_alikeChild hm hs readsBody ihb
    refine ⟨_, .loop hk (Node.getStr_of_sameBut hs readsVar) hl hu hb hmin hmax hbody, fun R => ?_⟩
    rw [Term.check, Term.check, sameMin, sameMax, sameBody]
  | ret kind readsValue _ _ ih =>
    have hk := (Node.variant_of_sameBut hs).trans kind
    obtain ⟨_, val, hv, hval, same⟩ := exists_alikeChild hm hs readsValue ih
    obtain ⟨ty, hty⟩ := exists_typeOf hm.fits (by rw [hk]; rfl)
    refine ⟨_, .ret hk hv hty hval, fun R => ?_⟩
    rw [Term.check, Term.check, same]
  | funcDef kind readsName readsArgs readsTypes typesOf readsReturn readsBody _ ih =>
    have hk := (Node.variant_of_sameBut hs).trans kind
    obtain ⟨_, body, hb, hbody, same⟩ := exists_alikeChild hm hs readsBody ih
    obtain ⟨_, hargs, sameArgs⟩ := Node.get_of_sameBut hs (by decide) readsArgs
    obtain rfl := Value.strs_of_sameBut sameArgs
    obtain ⟨_, htypes, sameTypes⟩ := Node.get_of_sameBut hs (by decide) readsTypes
    obtain ⟨ks, rfl, hks⟩ := Value.members_of_sameBut sameTypes typesOf
    refine ⟨_, .funcDef hk (Node.getStr_of_sameBut hs readsName) hargs htypes hks (Node.getMember_of_sameBut hs readsReturn)
      hb hbody, fun R => ?_⟩
    rw [Term.check, Term.check, same]

/-! ### Programs -/

/-- Programs whose terms are typed alike have one outcome: an error, or a symbol table and a text. -/
theorem analyze_agree {u : Term} (hn : n.BuiltFrom variants) (hm : m.BuiltFrom variants) (ht : Spells n t) (hu : Spells m u)
    (same : u.check none = t.check none) (w v : Workspace) :
    Agrees (fun a b => a.tree.SameText b.tree ∧ a.symbols = b.symbols) (built (Typing.analyze n) w).1
      (built (Typing.analyze m) v).1 := by
  have hv := analyze_agrees hm hu v
  rw [same] at hv
  refine ((analyze_agrees hn ht w).both hv).mono ?_
  rintro a b ⟨p, ⟨hra, hsa⟩, hrb, hsb⟩
  exact ⟨hra.spells.sameText hrb.spells hra.builtFrom.complete hrb.builtFrom.complete, hsa.trans hsb.symm⟩

/-- The types that a program carries before it is typed change nothing: programs that are the same but for these fail
    with one error, or end with one symbol table and with typed programs of one text. -/
theorem analyze_staleTypes (hn : n.BuiltFrom variants) (hm : m.BuiltFrom variants) (hs : n.sameBut "type" m = true)
    (w v : Workspace) :
    Agrees (fun a b => a.symbols = b.symbols ∧ a.tree.canonicalJson = b.tree.canonicalJson)
      (built (Typing.analyze n) w).1 (built (Typing.analyze m) v).1 := by
  obtain ⟨t, ht⟩ := exists_spells n hn
  obtain ⟨u, hu, same⟩ := ht.exists_alike hm hs
  exact (analyze_agree hn hm ht hu (same none) w v).mono fun _ _ ⟨text, symbols⟩ => ⟨symbols, text.canonicalJson⟩

/-! ### Types that are all wrong -/

/-- `level[int(true)] := 2`, with the types given written at the target, at the conversion and at its operand -/
def raisedLevel (target conversion operand : Value) : Node :=
  .mk 5 Kind.assign.variant [
    .node (.mk 2 Kind.ref.variant [.str "level",
      .node (.mk 1 Kind.castToInt.variant [.node (.mk 0 Kind.boolConst.variant [.bool true, operand]), conversion]), target]),
    .node (.mk 3 Kind.intConst.variant [.int 2, .absent])]

def freshLevel : Node := raisedLevel .absent .absent .absent

def staleLevel : Node := raisedLevel (.ofMember Ty.void) (.ofMember Ty.float) (.ofMember Ty.intArray)

theorem freshLevel_builtFrom : freshLevel.BuiltFrom variants := by decide

theorem staleLevel_builtFrom : staleLevel.BuiltFrom variants := by decide

theorem analyze_staleTypes_level : freshLevel.BuiltFrom variants ∧ staleLevel.BuiltFrom variants ∧
    freshLevel.sameBut "type" staleLevel = true ∧ ∃ a b w v, built (Typing.analyze freshLevel) {} = (.ok a, w) ∧
      built (Typing.analyze staleLevel) {} = (.ok b, v) ∧ a.symbols.toList = [("level", .intArray)] ∧
      a.symbols = b.symbols ∧ a.tree.canonicalJson = b.tree.canonicalJson := by
  have hspells : Spells freshLevel
      (.store "level" (.cast .toInt (.const (.bool true) none) none) none (.const (.int 2) none)) :=
    .store rfl rfl rfl rfl rfl rfl rfl (.cast rfl rfl rfl (.const rfl rfl rfl)) (.const rfl rfl rfl)
  have hs : freshLevel.sameBut "type" staleLevel = true := by decide +kernel
  obtain ⟨a, ha, -, hsymbols⟩ := Agrees.ok_inv (analyze_agrees freshLevel_builtFrom hspells {})
  have hsame := analyze_staleTypes freshLevel_builtFrom staleLevel_builtFrom hs {} {}
  rw [ha] at hsame
  obtain ⟨b, hb, symbols, text⟩ := hsame.ok_left_inv
  refine ⟨freshLevel_builtFrom, staleLevel_builtFrom, hs, a, b, _, _, Prod.ext ha rfl, Prod.ext hb rfl, ?_, symbols, text⟩
  rw [hsymbols]
  rfl

end TypedTree.Expr
