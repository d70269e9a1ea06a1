import TypedTree.Proofs.Expr.Judgement
import TypedTree.Proofs.Expr.Soundness

/-! The names of a program in the order in which they are met. A typed program, gone through from the front, declares
    every name before it is read, and always with one type; its symbol table lists the declarations in that order,
    each name once. The reason is one law: typing changes the table as the mentions in its result do, one by one. -/

namespace TypedTree.Expr

/-- What a program says of a name in one place: it reads the name, or declares it with the type written there. -/
inductive Mention where
  | read (name : String)
  | declared (name : String) (type : Option Ty)

def Mention.declaration? : Mention → Option (String × Option Ty)
  | .read _ => none
  | .declared name type => some (name, type)

namespace Term

mutual

/-- The mentions of names, in order. An assignment declares its target after its value and its index are read, a loop
    its variable between its bounds and its body, a function its arguments before its body. -/
def mentions : Term → List Mention
  | .binOp _ left right _ => left.mentions ++ right.mentions
  | .cmpOp _ left right _ => left.mentions ++ right.mentions
  | .unOp _ e _ => e.mentions
  | .var name _ => [.read name]
  | .element name index _ => .read name :: index.mentions
  | .const _ _ => []
  | .cast _ e _ => e.mentions
  | .assign name type val => val.mentions ++ [.declared name type]
  | .store name index type val => val.mentions ++ (index.mentions ++ [.declared name type])
  | .block body => mentionsAll body
  | .branch cond body => cond.mentions ++ body.mentions
  | .branchElse cond body elseBody => cond.mentions ++ (body.mentions ++ elseBody.mentions)
  | .loop counter min max body => min.mentions ++ (max.mentions ++ .declared counter (some .int) :: body.mentions)
  | .ret val _ => val.mentions
  | .funcDef _ args types _ body => (args.zip types).map (fun a => .declared a.1 (some a.2)) ++ body.mentions

def mentionsAll : List Term → List Mention
  | [] => []
  | t :: ts => t.mentions ++ mentionsAll ts

end

/-- The declarations among the mentions, in order. -/
def declarations (t : Term) : List (String × Option Ty) := t.mentions.filterMap Mention.declaration?

theorem mentions_ensure {t u : Term} {target : Ty} (h : t.ensure target = .ok u) : u.mentions = t.mentions := by
  obtain ⟨found, -, ⟨-, rfl⟩ | ⟨via, -, -, rfl⟩⟩ := ensure_inv h
  · rfl
  · rw [mentions]

end Term

/-! ### Tables along the mentions -/

/-- The mentions can be gone through from the table `G`, which they make `G'`: what is read is declared by then, and
    every declaration is accepted. -/
inductive Follows : SymbolTable → List Mention → SymbolTable → Prop
  | nil {G} : Follows G [] G
  | read {G G' name ty ms} (known : G.get? name = some ty) (rest : Follows G ms G') : Follows G (.read name :: ms) G'
  | declared {G H G' name ty ms} (accepted : G.declare name ty = .ok H) (rest : Follows H ms G') :
      Follows G (.declared name (some ty) :: ms) G'

namespace Follows
variable {G H G' : SymbolTable} {ms ns : List Mention} {name : String} {type : Option Ty}

theorem append (h : Follows G ms H) (hs : Follows H ns G') : Follows G (ms ++ ns) G' := by
  induction h with
  | nil => exact hs
  | read known _ ih => exact .read known (ih hs)
  | declared accepted _ ih => exact .declared accepted (ih hs)

theorem split (h : Follows G (ms ++ ns) G') : ∃ H, Follows G ms H ∧ Follows H ns G' := by
  induction ms generalizing G with
  | nil => exact ⟨G, .nil, h⟩
  | cons m ms ih =>
    cases h with
    | read known rest =>
      obtain ⟨H, hms, hns⟩ := ih rest
      exact ⟨H, .read known hms, hns⟩
    | declared accepted rest =>
      obtain ⟨H, hms, hns⟩ := ih rest
      exact ⟨H, .declared accepted hms, hns⟩

theorem of_declareAll {pairs : List (String × Ty)} (h : (declareAll pairs).run G = .ok ((), G')) :
    Follows G (pairs.map fun a => .declared a.1 (some a.2)) G' := by
  induction pairs generalizing G with
  | nil =>
    cases h
    exact .nil
  | cons a pairs ih =>
    obtain ⟨_, H, hd, hrest⟩ := run_bind_eq_ok.mp h
    exact .declared (run_declare.mp hd) (ih hrest)

theorem grows (h : Follows G ms G') : G'.Extends G := by
  induction h with
  | nil => exact .refl _
  | read _ _ ih => exact ih
  | declared accepted _ ih => exact ih.trans (SymbolTable.declare_extends accepted).1

/-- A name that is known in the end was known before, or has been declared on the way. -/
theorem known_inv (h : Follows G ms G') (hknown : (G'.get? name).isSome = true) :
    (G.get? name).isSome = true ∨ ∃ type, .declared name type ∈ ms := by
  induction h with
  | nil => exact .inl hknown
  | read _ _ ih => exact (ih hknown).imp_right fun ⟨type, hd⟩ => ⟨type, List.mem_cons_of_mem _ hd⟩
  | @declared G H G' other ty ms accepted _ ih =>
    rcases ih hknown with hH | ⟨type, hd⟩
    · by_cases hname : name = other
      · exact .inr ⟨some ty, hname ▸ List.mem_cons_self⟩
      · rcases SymbolTable.declare_inv accepted with ⟨-, rfl⟩ | ⟨-, rfl⟩
        · exact .inl hH
        · rw [SymbolTable.get?, OrderedMap.get?_insertNew, if_neg fun hc => hname hc.2] at hH
          exact .inl hH
    · exact .inr ⟨type, List.mem_cons_of_mem _ hd⟩

/-- A declaration has a type, and it is the type that the name has in the end. -/
theorem get?_of_declared (h : Follows G ms G') (hd : (name, type) ∈ ms.filterMap Mention.declaration?) :
    type = G'.get? name ∧ type.isSome = true := by
  induction h with
  | nil => cases hd
  | read _ _ ih => exact ih hd
  | declared accepted rest ih =>
    rcases List.mem_cons.mp hd with hfirst | hd
    · cases hfirst
      exact ⟨(rest.grows _ _ (SymbolTable.declare_extends accepted).2).symm, rfl⟩
    · exact ih hd

end Follows

/-- Typing changes the table as the mentions of the typed term do. -/
theorem Infers.follows {R : Option Ty} {G G' : SymbolTable} {t u : Term} (h : Infers R G t u G') :
    Follows G u.mentions G' := by
  induction h with
  | binOp _ _ _ _ _ hl hr ihl ihr =>
    rw [Term.mentions, Term.mentions_ensure hl, Term.mentions_ensure hr]
    exact ihl.append ihr
  | cmpOp _ _ _ _ _ hl hr ihl ihr =>
    rw [Term.mentions, Term.mentions_ensure hl, Term.mentions_ensure hr]
    exact ihl.append ihr
  | unOp _ _ hv ih =>
    rw [Term.mentions, Term.mentions_ensure hv]
    exact ih
  | var looksUp =>
    rw [Term.mentions]
    exact .read looksUp .nil
  | element looksUp _ _ _ ih =>
    rw [Term.mentions]
    exact .read looksUp ih
  | const =>
    rw [Term.mentions]
    exact .nil
  | cast _ hv ih =>
    rw [Term.mentions_ensure hv]
    exact ih
  | assign _ _ _ declares ih =>
    rw [Term.mentions]
    exact ih.append (.declared declares .nil)
  | store _ _ _ _ _ _ declares ihv ihi =>
    rw [Term.mentions]
    exact ihv.append (ihi.append (.declared declares .nil))
  | done =>
    rw [Term.mentions, Term.mentionsAll]
    exact .nil
  | next _ _ ih ihs =>
    rw [Term.mentions, Term.mentionsAll]
    rw [Term.mentions] at ihs
    exact ih.append ihs
  | branch _ _ ihc ihb =>
    rw [Term.mentions]
    exact ihc.append ihb
  | branchElse _ _ _ ihc ihb ihe =>
    rw [Term.mentions]
    exact ihc.append (ihb.append ihe)
  | loop _ _ _ _ declares _ ihl ihu ihb =>
    rw [Term.mentions]
    exact ihl.append (ihu.append (.declared declares ihb))
  | ret _ _ ih =>
    rw [Term.mentions]
    exact ih
  | funcDef _ declares _ ih =>
    rw [Term.mentions]
    exact (Follows.of_declareAll declares).append ih

/-! ### First declarations -/

section First
variable {α : Type}

/-- The entries without those that repeat the name of an earlier one. -/
def firstOfEachName (ds : List (String × α)) : List (String × α) := ds.eraseDupsBy fun a b => a.1 == b.1

theorem firstOfEachName_cons (d : String × α) (ds : List (String × α)) :
    firstOfEachName (d :: ds) = d :: firstOfEachName (ds.filter fun e => e.1 ≠ d.1) := by
  rw [firstOfEachName, List.eraseDupsBy_cons, firstOfEachName]
  simp only [beq_eq_false_iff_ne]

theorem firstOfEachName_eq_self {ds : List (String × α)} (h : (ds.map Prod.fst).Nodup) : firstOfEachName ds = ds := by
  induction ds with
  | nil => rfl
  | cons d ds ih =>
    rw [List.map_cons, List.nodup_cons] at h
    have hfresh : (ds.filter fun e => e.1 ≠ d.1) = ds := List.filter_eq_self.mpr fun e he =>
      decide_eq_true fun hname => h.1 (hname ▸ List.mem_map_of_mem he)
    rw [firstOfEachName_cons, hfresh, ih h.2]

/-- An entry goes if there is one of its name before it. -/
theorem firstOfEachName_repeated {d : String × α} (es ds : List (String × α)) (h : d.1 ∈ es.map Prod.fst) :
    firstOfEachName (es ++ d :: ds) = firstOfEachName (es ++ ds) := by
  match es with
  | e :: es =>
    rw [List.cons_append, List.cons_append, firstOfEachName_cons, firstOfEachName_cons]
    simp only [List.filter_append, List.filter_cons]
    by_cases hd : d.1 = e.1
    · simp [hd]
    · have hmem : d.1 ∈ (es.filter fun e' => e'.1 ≠ e.1).map Prod.fst := by
        obtain ⟨e', he', hname⟩ := List.mem_map.mp ((List.mem_cons.mp h).resolve_left hd)
        exact List.mem_map.mpr ⟨e', List.mem_filter.mpr ⟨he', by simpa [hname] using hd⟩, hname⟩
      have ih := firstOfEachName_repeated (es.filter fun e' => e'.1 ≠ e.1) (ds.filter fun e' => e'.1 ≠ e.1) hmem
      simpa [hd] using ih
termination_by es.length
decreasing_by exact Nat.lt_succ_of_le (List.length_filter_le _ _)

end First

/-- The names of a table with their types, as a program would declare them. -/
def SymbolTable.declarations (G : SymbolTable) : List (String × Option Ty) := G.toList.map fun e => (e.1, some e.2)

namespace Follows
variable {G G' : SymbolTable} {ms : List Mention}

theorem declarations_eq (h : Follows G ms G') :
    G'.declarations = firstOfEachName (G.declarations ++ ms.filterMap Mention.declaration?) := by
  have names : ∀ G : SymbolTable, G.declarations.map Prod.fst = G.names.keys := fun G => by
    simp [SymbolTable.declarations, SymbolTable.toList, OrderedMap.keys, Function.comp_def]
  induction h with
  | @nil G =>
    rw [List.filterMap_nil, List.append_nil, firstOfEachName_eq_self]
    rw [names]
    exact G.names.nodup_keys
  | read _ _ ih => exact ih
  | @declared G H G' name ty ms accepted _ ih =>
    rw [ih, List.filterMap_cons, Mention.declaration?]
    rcases SymbolTable.declare_inv accepted with ⟨hfound, rfl⟩ | ⟨hnew, rfl⟩
    · have hkey : name ∈ H.names.keys := OrderedMap.mem_keys_of_get? hfound
      exact (firstOfEachName_repeated _ _ (by rwa [names])).symm
    · rw [SymbolTable.declarations, SymbolTable.toList, OrderedMap.insertNew, dif_neg (OrderedMap.get?_eq_none_iff.mp hnew),
        List.map_append, List.append_assoc]
      rfl

end Follows

/-! ### Programs -/

/-- The symbol table of a program lists its declarations in order, without later ones of the same name; declarations of
    one name agree in their type; and what is read has been declared before. -/
theorem analyze_firstDeclarations {n : Node} (hn : n.BuiltFrom variants) {w w' : Workspace} {typed : Typing.Typed}
    (h : built (Typing.analyze n) w = (.ok typed, w')) :
    ∃ t, Spells typed.tree t ∧ typed.symbols.declarations = firstOfEachName t.declarations ∧
      (∀ name type type', (name, type) ∈ t.declarations → (name, type') ∈ t.declarations → type = type') ∧
      ∀ before name after, t.mentions = before ++ .read name :: after → ∃ type, .declared name type ∈ before := by
  obtain ⟨t, ht⟩ := exists_spells n hn
  have hagrees := analyze_agrees hn ht w
  rw [h] at hagrees
  obtain ⟨⟨u, G⟩, hcheck, hrw, hsymbols⟩ := hagrees.ok_left_inv
  have hfollows : Follows .empty u.mentions G := (infers_iff.mpr hcheck).follows
  refine ⟨u, hrw.spells, ?_, fun name type type' hd hd' => ?_, fun before name after heq => ?_⟩
  · rw [hsymbols]
    exact hfollows.declarations_eq
  · exact (hfollows.get?_of_declared hd).1.trans (hfollows.get?_of_declared hd').1.symm
  · rw [heq] at hfollows
    obtain ⟨H, hbefore, hread⟩ := hfollows.split
    cases hread with
    | read known =>
    rcases hbefore.known_inv (by rw [known]; rfl) with hempty | hdeclared
    · cases hempty
    · exact hdeclared

/-! ### Names in a loop and in a function -/

/-- `for i in 0 .. 3 { total[i] := i }; fn scale(x: Float, i: Int): Float { return x * i }` -/
def tally : Node :=
  .mk 14 Kind.block.variant [.nodeList [
    .mk 7 Kind.loop.variant [.str "i",
      .node (.mk 0 Kind.intConst.variant [.int 0, .absent]), .node (.mk 1 Kind.intConst.variant [.int 3, .absent]),
      .node (.mk 6 Kind.block.variant [.nodeList [
        .mk 5 Kind.assign.variant [
          .node (.mk 3 Kind.ref.variant [.str "total", .node (.mk 2 Kind.ref.variant [.str "i", .absent, .absent]), .absent]),
          .node (.mk 4 Kind.ref.variant [.str "i", .absent, .absent])]]])],
    .mk 13 Kind.funcDef.variant [.str "scale", .list [.str "x", .str "i"],
      .node (.mk 12 Kind.block.variant [.nodeList [
        .mk 11 Kind.ret.variant [
          .node (.mk 10 Kind.binOp.variant [.ofMember BinaryOp.mul,
            .node (.mk 8 Kind.ref.variant [.str "x", .absent, .absent]),
            .node (.mk 9 Kind.ref.variant [.str "i", .absent, .absent]), .absent]), .absent]]]),
      .list [.ofMember Ty.float, .ofMember Ty.int], .ofMember Ty.float]]]

def tallyTerm : Term :=
  .block [
    .loop "i" (.const (.int 0) none) (.const (.int 3) none) (.block [.store "total" (.var "i" none) none (.var "i" none)]),
    .funcDef "scale" ["x", "i"] [.float, .int] .float
      (.block [.ret (.binOp .mul (.var "x" none) (.var "i" none) none) none])]

theorem tally_builtFrom : tally.BuiltFrom variants := by decide

theorem tally_spells : Spells tally tallyTerm := by
  have reference : ∀ (id : NodeId) (name : String),
      Spells (.mk id Kind.ref.variant [.str name, .absent, .absent]) (.var name none) := fun _ _ => .var rfl rfl rfl rfl
  have single : ∀ {id : NodeId} {n : Node} {t : Term}, Spells n t →
      Spells (.mk id Kind.block.variant [.nodeList [n]]) (.block [t]) := fun h =>
    .block rfl rfl rfl (List.forall_mem_singleton.mpr h)
  refine .block rfl rfl rfl (List.forall_mem_cons.mpr ⟨?_, List.forall_mem_singleton.mpr ?_⟩)
  · refine .loop rfl rfl rfl rfl rfl (.const rfl rfl rfl) (.const rfl rfl rfl) (single ?_)
    exact .store rfl rfl rfl rfl rfl rfl rfl (reference _ _) (reference _ _)
  · refine .funcDef rfl rfl rfl rfl rfl rfl rfl (single (.ret rfl rfl rfl ?_))
    exact .binOp rfl rfl rfl rfl rfl (reference _ _) (reference _ _)

/-- The loop declares `i` before `total`, and the function adds `x` only. -/
theorem analyze_firstDeclarations_tally : tally.BuiltFrom variants ∧ ∃ typed w',
    built (Typing.analyze tally) {} = (.ok typed, w') ∧
      typed.symbols.toList = [("i", .int), ("total", .intArray), ("x", .float)] ∧
      ∃ t, Spells typed.tree t ∧ typed.symbols.declarations = firstOfEachName t.declarations ∧
        (∀ name type type', (name, type) ∈ t.declarations → (name, type') ∈ t.declarations → type = type') ∧
        ∀ before name after, t.mentions = before ++ .read name :: after → ∃ type, .declared name type ∈ before := by
  obtain ⟨typed, hrun, -, hsymbols⟩ := Agrees.ok_inv (analyze_agrees tally_builtFrom tally_spells {})
  have hbuilt : built (Typing.analyze tally) {} = (.ok typed, (built (Typing.analyze tally) {}).2) := Prod.ext hrun rfl
  refine ⟨tally_builtFrom, typed, _, hbuilt, ?_, analyze_firstDeclarations tally_builtFrom hbuilt⟩
  rw [hsymbols]
  rfl

end TypedTree.Expr
