import TypedTree.Proofs.Compile.Identities
import TypedTree.Proofs.Tree.CopyContent

/-! Which nodes traversals reach. A map selects fields by their types, and children are found among values; still a map of
    a node that can be obtained calls its transform on the children, in their order, until a call fails or a field does
    not admit what it would hold. So a walk of a tree and a copy of it enter the same nodes, in the same order. -/

namespace TypedTree

/-! ### Values with other nodes -/

section Mapped
variable {R S : Node → Node → Prop} {v v' : Value}

theorem Value.NodeMapped.imp (hRS : ∀ c c', R c c' → S c c') (h : v.NodeMapped R v') : v.NodeMapped S v' := by
  cases h with
  | node hc => exact .node (hRS _ _ hc)
  | other hv => exact .other hv

theorem Value.HeldMapped.imp (hRS : ∀ c c', R c c' → S c c') (h : v.HeldMapped R v') : v.HeldMapped S v' := by
  cases h with
  | single hv h => exact .single hv (h.imp hRS)
  | list h => exact .list (h.imp fun _ _ => NodeMapped.imp hRS)
  | set h => exact .set (h.imp fun _ _ => NodeMapped.imp hRS)

theorem Value.HeldMapped.eq_of_nodes_eq_nil (h : v.HeldMapped R v') (hnil : v.nodes = []) : v' = v := by
  have items : ∀ {xs ys : List Value}, List.Forall₂ (NodeMapped R) xs ys → xs.filterMap asNode? = [] → ys = xs := by
    intro xs ys h hnil
    induction h with
    | nil => rfl
    | cons hxy _ ih =>
      rw [List.filterMap_eq_nil_iff, List.forall_mem_cons] at hnil
      cases hxy with
      | node => cases hnil.1
      | other => rw [ih (List.filterMap_eq_nil_iff.mpr hnil.2)]
  cases h with
  | single _ h =>
    cases h with
    | node => cases hnil
    | other => rfl
  | list h => exact congrArg Value.list (items h hnil)
  | set h => exact congrArg Value.set (items h hnil)

end Mapped

theorem Node.Fits.children_eq_fields {n : Node} (h : n.Fits) : n.children = n.fields.flatMap (·.2.nodes) := by
  rw [children, ← List.map_snd_zip (Nat.le_of_eq h.complete), List.flatMap_map]
  rfl

namespace Client

/-! ### Calls -/

/-- A call of a transform, and how it ended. -/
structure Call where
  node : Node
  answer : Except Error Node

/-- The nodes `cs` were called, one after the other, and gave back the nodes `cs'`. -/
structure Answered (cs : List Node) (calls : List Call) (cs' : List Node) : Prop where
  called : calls.map Call.node = cs
  answers : calls.map Call.answer = cs'.map .ok

/-- The nodes `cs` were called, one after the other, until a call failed. -/
inductive Stopped (cs : List Node) : List Call → Error → Prop
  | fails {before after results : List Node} {c : Node} {calls : List Call} {e : Error}
      (split : cs = before ++ c :: after) (answered : Answered before calls results) :
      Stopped cs (calls ++ [⟨c, .error e⟩]) e

/-- The call of `c` gave back `c'`. -/
def Gave (calls : List Call) (c c' : Node) : Prop := ⟨c, .ok c'⟩ ∈ calls

/-- How a map of the children of the node ends, by the calls of the transform. -/
inductive MapEnds (n : Node) : List Call → Except Error Node → Prop
  /-- Every child was called. The new node has the results for children, which its fields admit, and all else as before. -/
  | mapped {calls : List Call} {n' : Node} (answered : Answered n.children calls n'.children)
      (variant : n'.variant = n.variant) (values : List.Forall₂ (fun (p : Field × Value) v' =>
        p.2.HeldMapped (Gave calls) v' ∧ (p.1.type.nodeClass? = none → v' = p.2) ∧ p.1.type.admits v' = true)
        n.fields n'.values) : MapEnds n calls (.ok n')
  /-- A call failed, and was the last one. -/
  | failed {calls : List Call} {e : Error} (stopped : Stopped n.children calls e) : MapEnds n calls (.error e)
  /-- The last call was that of the last node of a field which does not admit the results. -/
  | refused {before after : List (Field × Value)} {f : Field} {v v' : Value} {earlier last : List Call}
      {results : List Node} (split : n.fields = before ++ (f, v) :: after)
      (answeredBefore : Answered (before.flatMap (·.2.nodes)) earlier results)
      (answered : Answered v.nodes last v'.nodes) (nonempty : v.nodes ≠ []) (value : v.HeldMapped (Gave last) v')
      (refused : f.type.admits v' = false) :
      MapEnds n (earlier ++ last) (.error (f.typeError n.kind v'))

section Calls
variable {cs cs' ds ds' : List Node} {calls calls' : List Call} {e : Error}

theorem Answered.nil : Answered [] [] [] := ⟨rfl, rfl⟩

theorem Answered.single (c c' : Node) : Answered [c] [⟨c, .ok c'⟩] [c'] := ⟨rfl, rfl⟩

theorem Answered.append (h : Answered cs calls cs') (h' : Answered ds calls' ds') :
    Answered (cs ++ ds) (calls ++ calls') (cs' ++ ds') :=
  ⟨by rw [List.map_append, h.called, h'.called], by rw [List.map_append, h.answers, h'.answers, List.map_append]⟩

theorem Stopped.single (c : Node) (e : Error) : Stopped [c] [⟨c, .error e⟩] e := .fails (List.nil_append _).symm .nil

theorem Stopped.after (h : Stopped ds calls' e) (answered : Answered cs calls cs') :
    Stopped (cs ++ ds) (calls ++ calls') e := by
  obtain @⟨before, after, results, c, earlier, _, rfl, hearlier⟩ := h
  rw [← List.append_assoc, ← List.append_assoc]
  exact .fails rfl (answered.append hearlier)

theorem Stopped.append (h : Stopped cs calls e) (ds : List Node) : Stopped (cs ++ ds) calls e := by
  obtain @⟨before, after, results, c, earlier, _, rfl, hearlier⟩ := h
  exact .fails (List.append_assoc ..) hearlier

theorem Stopped.called (h : Stopped cs calls e) : calls.map Call.node <+: cs := by
  obtain @⟨before, after, results, c, earlier, _, rfl, hearlier⟩ := h
  refine ⟨after, ?_⟩
  rw [List.map_append, hearlier.called, List.append_assoc]
  rfl

theorem MapEnds.called {n : Node} {r : Except Error Node} (h : MapEnds n calls r) (hfits : n.Fits) :
    calls.map Call.node <+: n.children := by
  cases h with
  | mapped answered => exact answered.called ▸ List.prefix_rfl
  | failed stopped => exact stopped.called
  | refused split answeredBefore answered =>
    rw [hfits.children_eq_fields, split, List.map_append, answeredBefore.called, answered.called, List.flatMap_append,
      List.flatMap_cons, ← List.append_assoc]
    exact List.prefix_append _ _

end Calls

/-! ### Transforms that take down their calls -/

namespace Transform
variable {σ α β : Type}

/-- The transform, which takes down its calls as well. -/
def recorded (f : Node → Transform σ Node) (c : Node) : Transform (σ × List Call) Node :=
  ExceptT.mk fun t w =>
    let ((r, s), w') := (f c).ends t.1 w
    ((r, (s, t.2 ++ [⟨c, r⟩])), w')

/-- `y` does what `x` does and takes down calls, of which and the result `Q` holds. -/
def Records (x : Transform σ α) (y : Transform (σ × List Call) α) (Q : List Call → Except Error α → Prop) : Prop :=
  ∀ s log w r s' w', x.ends s w = ((r, s'), w') → ∃ calls, y.ends (s, log) w = ((r, (s', log ++ calls)), w') ∧ Q calls r

/-- One action for each of the list, all of which succeed. -/
inductive Each (Q : α → List Call → Except Error β → Prop) : List α → List Call → List β → Prop
  | nil : Each Q [] [] []
  | cons {x : α} {xs : List α} {y : β} {ys : List β} {first rest : List Call} (h : Q x first (.ok y))
      (hs : Each Q xs rest ys) : Each Q (x :: xs) (first ++ rest) (y :: ys)

/-- One action for each of the list, until one fails. -/
inductive Sequence (Q : α → List Call → Except Error β → Prop) (xs : List α) : List Call → Except Error (List β) → Prop
  | done {calls : List Call} {ys : List β} (each : Each Q xs calls ys) : Sequence Q xs calls (.ok ys)
  | failed {before after : List α} {x : α} {ys : List β} {earlier last : List Call} {e : Error}
      (split : xs = before ++ x :: after) (each : Each Q before earlier ys) (fails : Q x last (.error e)) :
      Sequence Q xs (earlier ++ last) (.error e)

section Each
variable {Q : α → List Call → Except Error β → Prop} {xs : List α} {ys : List β} {calls : List Call}

theorem Each.answered {nodes : α → List Node} {nodes' : β → List Node} (h : Each Q xs calls ys)
    (hQ : ∀ x calls y, Q x calls (.ok y) → Answered (nodes x) calls (nodes' y)) :
    Answered (xs.flatMap nodes) calls (ys.flatMap nodes') := by
  induction h with
  | nil => exact .nil
  | cons hx _ ih => exact (hQ _ _ _ hx).append ih

theorem Each.forall₂ (h : Each Q xs calls ys) : List.Forall₂ (fun x y => ∃ own ⊆ calls, Q x own (.ok y)) xs ys := by
  induction h with
  | nil => exact .nil
  | @cons _ _ _ _ first rest hx _ ih =>
    refine .cons ⟨first, List.subset_append_left .., hx⟩ (ih.imp ?_)
    rintro _ _ ⟨own, hown, hq⟩
    exact ⟨own, List.Subset.trans hown (List.subset_append_right ..), hq⟩

end Each

namespace Records
variable {x : Transform σ α} {y : Transform (σ × List Call) α} {P : List Call → Except Error α → Prop}
  {Q : List Call → Except Error β → Prop}

theorem call (f : Node → Transform σ Node) (c : Node) : Records (f c) (recorded f c) fun calls r =>
    calls = [Call.mk c r] := by
  intro s log w r s' w' h
  refine ⟨[⟨c, r⟩], ?_, rfl⟩
  show (let ((r, s), w') := (f c).ends s w; ((r, (s, log ++ [Call.mk c r])), w')) = _
  rw [h]

theorem pure {a : α} (h : P [] (.ok a)) : Records (σ := σ) (Pure.pure a) (Pure.pure a) P := by
  intro s log w r s' w' hrun
  cases hrun
  exact ⟨[], by rw [List.append_nil]; rfl, h⟩

theorem lift {z : BuildM α} (h : ∀ w, P [] (built z w).1) : Records (σ := σ) (liftM z) (liftM z) P := by
  intro s log w r s' w' hrun
  rw [ends_lift] at hrun
  cases hrun
  exact ⟨[], by rw [List.append_nil, ends_lift], h w⟩

theorem bind {f : α → Transform σ β} {g : α → Transform (σ × List Call) β} (hx : Records x y P)
    (hf : ∀ a first, P first (.ok a) → Records (f a) (g a) fun calls r => Q (first ++ calls) r)
    (herror : ∀ calls e, P calls (.error e) → Q calls (.error e)) : Records (x >>= f) (y >>= g) Q := by
  intro s log w r s' w' h
  rw [ends_bind] at h
  rcases hfirst : x.ends s w with ⟨⟨_ | a, s₁⟩, w₁⟩ <;> rw [hfirst] at h
  · obtain ⟨calls, hy, hcalls⟩ := hx s log w _ s₁ w₁ hfirst
    cases h
    exact ⟨calls, by rw [ends_bind, hy], herror calls _ hcalls⟩
  · obtain ⟨first, hy, hcalls⟩ := hx s log w _ s₁ w₁ hfirst
    obtain ⟨calls, hg, hq⟩ := hf a first hcalls s₁ (log ++ first) w₁ r s' w' h
    exact ⟨first ++ calls, by rw [ends_bind, hy, ← List.append_assoc]; exact hg, hq⟩

theorem map {f : α → β} (hx : Records x y P) (hok : ∀ calls a, P calls (.ok a) → Q calls (.ok (f a)))
    (herror : ∀ calls e, P calls (.error e) → Q calls (.error e)) : Records (f <$> x) (f <$> y) Q := by
  rw [map_eq_pure_bind, map_eq_pure_bind]
  refine hx.bind (fun a first hfirst => pure ?_) herror
  rw [List.append_nil]
  exact hok first a hfirst

theorem mapM {f : α → Transform σ β} {g : α → Transform (σ × List Call) β} {Q : α → List Call → Except Error β → Prop}
    {xs : List α} (h : ∀ x ∈ xs, Records (f x) (g x) (Q x)) : Records (xs.mapM f) (xs.mapM g) (Sequence Q xs) := by
  induction xs with
  | nil => exact pure (.done .nil)
  | cons x xs ih =>
    rw [List.forall_mem_cons] at h
    rw [List.mapM_cons, List.mapM_cons]
    refine h.1.bind (fun y first hfirst => ?_) fun calls e hfails =>
      .failed (List.nil_append _).symm .nil hfails
    refine (ih h.2).bind (fun ys rest hrest => pure ?_) fun rest e hrest => ?_
    · rw [List.append_nil]
      obtain ⟨each⟩ := hrest
      exact .done (.cons hfirst each)
    · obtain _ | @⟨before, after, x', ys, earlier, last, _, rfl, each, fails⟩ := hrest
      rw [← List.append_assoc]
      exact .failed (List.cons_append ..).symm (.cons hfirst each) fails

end Records

/-! ### Maps -/

/-- How the map of one field ends. -/
inductive FieldEnds (kind : String) (p : Field × Value) : List Call → Except Error Value → Prop
  | mapped {calls : List Call} {v' : Value} (answered : Answered p.2.nodes calls v'.nodes)
      (value : p.2.HeldMapped (Gave calls) v') (plain : p.1.type.nodeClass? = none → v' = p.2)
      (admitted : p.1.type.admits v' = true) : FieldEnds kind p calls (.ok v')
  | failed {calls : List Call} {e : Error} (stopped : Stopped p.2.nodes calls e) : FieldEnds kind p calls (.error e)
  | refused {calls : List Call} {v' : Value} (answered : Answered p.2.nodes calls v'.nodes) (nonempty : p.2.nodes ≠ [])
      (value : p.2.HeldMapped (Gave calls) v') (refused : p.1.type.admits v' = false) :
      FieldEnds kind p calls (.error (p.1.typeError kind v'))

/-- How the map of an item of a list ends: an item is called if it is a node. -/
inductive ItemEnds : Value → List Call → Except Error Value → Prop
  | node {c c' : Node} : ItemEnds (.node c) [⟨c, .ok c'⟩] (.ok (.node c'))
  | failed {c : Node} {e : Error} : ItemEnds (.node c) [⟨c, .error e⟩] (.error e)
  | other {v : Value} (hv : v.asNode? = none) : ItemEnds v [] (.ok v)

/-- How the map of a value ends. -/
inductive ValueEnds (v : Value) : List Call → Except Error Value → Prop
  | mapped {calls : List Call} {v' : Value} (answered : Answered v.nodes calls v'.nodes)
      (value : v.HeldMapped (Gave calls) v') : ValueEnds v calls (.ok v')
  | failed {calls : List Call} {e : Error} (stopped : Stopped v.nodes calls e) : ValueEnds v calls (.error e)

variable (f : Node → Transform σ Node)

theorem records_mapNode (v : Value) : Records (v.mapNode f) (v.mapNode (recorded f)) (ItemEnds v) := by
  cases v with
  | node c =>
    refine (Records.call f c).map ?_ ?_
    · rintro _ c' rfl
      exact .node
    · rintro _ e rfl
      exact .failed
  | _ => exact .pure (.other rfl)

theorem ItemEnds.answered {v v' : Value} {calls : List Call} (h : ItemEnds v calls (.ok v')) :
    Answered v.asNode?.toList calls v'.asNode?.toList ∧ v.NodeMapped (Gave calls) v' := by
  cases h with
  | node => exact ⟨.single _ _, .node List.mem_cons_self⟩
  | other hv =>
    rw [hv]
    exact ⟨.nil, .other hv⟩

theorem ItemEnds.stopped {v : Value} {calls : List Call} {e : Error} (h : ItemEnds v calls (.error e)) :
    Stopped v.asNode?.toList calls e := by
  cases h
  exact .single _ e

theorem records_mapItems (items : List Value) :
    Records (items.mapM (Value.mapNode f)) (items.mapM (Value.mapNode (recorded f))) (Sequence ItemEnds items) :=
  .mapM fun v _ => records_mapNode f v

theorem answered_of_items {items items' : List Value} {calls : List Call} (h : Each ItemEnds items calls items') :
    Answered (items.filterMap Value.asNode?) calls (items'.filterMap Value.asNode?) := by
  rw [List.filterMap_eq_flatMap_toList, List.filterMap_eq_flatMap_toList]
  exact h.answered fun _ _ _ hv => hv.answered.1

theorem nodeMapped_of_items {items items' : List Value} {calls : List Call} (h : Each ItemEnds items calls items') :
    List.Forall₂ (Value.NodeMapped (Gave calls)) items items' := by
  refine h.forall₂.imp ?_
  rintro v v' ⟨own, hown, hv⟩
  exact hv.answered.2.imp fun _ _ h => hown h

theorem stopped_of_items {items : List Value} {calls : List Call} {e : Error}
    (h : Sequence ItemEnds items calls (.error e)) : Stopped (items.filterMap Value.asNode?) calls e := by
  obtain _ | @⟨before, after, v, items', earlier, last, _, rfl, each, fails⟩ := h
  have hrest : (v :: after).filterMap Value.asNode? = v.asNode?.toList ++ after.filterMap Value.asNode? := by
    cases v <;> rfl
  rw [List.filterMap_append, hrest]
  exact (fails.stopped.append _).after (answered_of_items each)

theorem records_mapHeld (v : Value) : Records (v.mapHeld f) (v.mapHeld (recorded f)) (ValueEnds v) := by
  cases v with
  | list items =>
    refine (records_mapItems f items).map ?_ fun calls e h => .failed (stopped_of_items h)
    rintro calls items' ⟨each⟩
    exact .mapped (answered_of_items each) (.list (nodeMapped_of_items each))
  | set items =>
    refine (records_mapItems f items).map ?_ fun calls e h => .failed (stopped_of_items h)
    rintro calls items' ⟨each⟩
    exact .mapped (answered_of_items each) (.set (nodeMapped_of_items each))
  | node c =>
    refine (Records.call f c).map ?_ ?_
    · rintro _ c' rfl
      exact .mapped (.single c c') (.single rfl (.node List.mem_cons_self))
    · rintro _ e rfl
      exact .failed (.single c e)
  | _ => exact .pure (.mapped .nil (.single rfl (.other rfl)))

theorem FieldEnds.answered {kind : String} {p : Field × Value} {calls : List Call} {v' : Value}
    (h : FieldEnds kind p calls (.ok v')) : Answered p.2.nodes calls v'.nodes := by
  cases h with
  | mapped answered => exact answered

/-- A field that is not selected holds no nodes, and one that holds none is not refused. -/
theorem records_mapField {p : Field × Value} (kind : String) (hadm : p.1.type.admits p.2 = true) :
    Records (Node.mapField kind .children f p) (Node.mapField kind .children (recorded f) p) (FieldEnds kind p) := by
  obtain ⟨field, v⟩ := p
  by_cases hchild : field.isChild = true
  · have hsel : Selector.children.selects field = true := hchild
    rw [Node.mapField, Node.mapField, if_pos hsel, if_pos hsel]
    refine (records_mapHeld f v).bind (fun v' calls h => .lift fun w => ?_) fun calls e h => ?_
    · obtain ⟨answered, value⟩ := h
      rw [List.append_nil, built_liftM, Field.checked]
      by_cases hadm' : field.type.admits v' = true
      · rw [if_pos hadm']
        exact .mapped answered value (fun hnone => value.eq_of_nodes_eq_nil (FieldType.nodes_eq_nil hadm hnone)) hadm'
      · rw [if_neg hadm']
        refine .refused answered (fun hnil => hadm' ?_) value (Bool.eq_false_iff.mpr hadm')
        rw [value.eq_of_nodes_eq_nil hnil]
        exact hadm
    · obtain _ | ⟨stopped⟩ := h
      exact .failed stopped
  · have hsel : ¬Selector.children.selects field = true := hchild
    have hnil := Field.nodes_eq_nil hadm hchild
    rw [Node.mapField, Node.mapField, if_neg hsel, if_neg hsel]
    refine .pure (.mapped ?_ (.of_nodes_eq_nil hnil) (fun _ => rfl) hadm)
    rw [hnil]
    exact .nil

theorem records_map {n : Node} (h : n.Fits) :
    Records (n.map .children f) (n.map .children (recorded f)) (MapEnds n) := by
  have hfields : ∀ p ∈ n.fields, Records (Node.mapField n.kind .children f p)
      (Node.mapField n.kind .children (recorded f) p) (FieldEnds n.kind p) := fun p hp =>
    records_mapField f n.kind (List.forall₂_zip h hp)
  rw [Node.map, Node.map, Node.mapSmaller_eq, Node.mapSmaller_eq]
  refine (Records.mapM hfields).bind (fun values calls hvalues => .lift fun w => ?_) fun calls e hvalues => ?_
  · obtain ⟨each⟩ := hvalues
    rw [List.append_nil]
    refine .mapped ?_ rfl (each.forall₂.imp ?_)
    · rw [h.children_eq_fields]
      exact each.answered fun _ _ _ hp => hp.answered
    · rintro p v' ⟨own, hown, hp⟩
      obtain ⟨answered, value, plain, admitted⟩ := hp
      exact ⟨value.imp fun _ _ h => hown h, plain, admitted⟩
  · obtain _ | @⟨before, after, ⟨field, v⟩, values, earlier, last, _, split, each, fails⟩ := hvalues
    have answered : Answered (before.flatMap (·.2.nodes)) earlier (values.flatMap Value.nodes) :=
      each.answered fun _ _ _ hp => hp.answered
    cases fails with
    | failed stopped =>
      refine .failed ?_
      rw [h.children_eq_fields, split, List.flatMap_append, List.flatMap_cons]
      exact (stopped.append _).after answered
    | refused answered' nonempty value refused => exact .refused split answered answered' nonempty value refused

end Transform
end Client

/-! ### Going through a tree -/

namespace Node

/-- The nodes of the tree, each as often as it is held: a node comes before what it holds. -/
def entries (n : Node) : List Node := n :: n.smallerChildren.flatMap fun c => c.1.entries
termination_by sizeOf n
decreasing_by exact c.2

theorem entries_eq (n : Node) : n.entries = n :: n.children.flatMap entries := by
  rw [entries, ← map_val_smallerChildren n, List.flatMap_map]

section Monad
variable {m : Type → Type} [Monad m] (enter : Node → m Unit)

/-- Something is done at each node of the tree, on the way down. -/
def walkEntering (n : Node) : m Unit := n.walkWith fun c => do
  enter c
  pure true

/-- The tree rebuilt node by node, with something done at each node on the way down. -/
def copyEntering [MonadLiftT BuildM m] (n : Node) : m Node := do
  enter n
  n.mapSmaller .children fun c => c.1.copyEntering
termination_by sizeOf n
decreasing_by exact c.2

/-- The walk goes through the entries, whatever is done at each. -/
theorem walkEntering_eq_forM [LawfulMonad m] (n : Node) : n.walkEntering enter = forM n.entries enter := by
  have below : ∀ cs : List n.Smaller, forM cs (fun c => c.1.walkEntering enter) =
      forM (cs.flatMap fun c => c.1.entries) enter := by
    intro cs
    induction cs with
    | nil => rfl
    | cons c cs ih => rw [List.flatMap_cons, List.forM_append, List.forM_cons, ih, walkEntering_eq_forM c.1]
  rw [walkEntering, walkWith, entries, List.forM_cons, ← below]
  simp only [bind_assoc, pure_bind, if_true]
  rfl
termination_by sizeOf n
decreasing_by exact c.2

end Monad

/-- If nothing is done on the way down, the tree is copied. -/
theorem copyEntering_pure (n : Node) : n.copyEntering (fun _ => pure ()) = n.copy := by
  have below : (fun c : n.Smaller => c.1.copyEntering fun _ => pure ()) = fun c => c.1.copy :=
    funext fun c => copyEntering_pure c.1
  rw [copyEntering, pure_bind, below, copy_eq_map, map]
termination_by sizeOf n
decreasing_by exact c.2

end Node

namespace Client.Transform
variable {α β : Type}

/-- Takes down that a node is entered. -/
def entered (c : Node) : Transform (List Node) Unit := modify (· ++ [c])

theorem ends_forM_entered (cs log : List Node) (w : Workspace) :
    (forM cs entered).ends log w = ((.ok (), log ++ cs), w) := by
  induction cs generalizing log with
  | nil =>
    rw [List.append_nil]
    rfl
  | cons c cs ih =>
    rw [List.forM_cons, ends_bind]
    refine (ih (log ++ [c])).trans ?_
    rw [List.append_assoc]
    rfl

/-- `y` gives what `x` gives, unless that fails, and takes down the nodes `cs`. -/
def Enters (x : BuildM α) (y : Transform (List Node) α) (cs : List Node) : Prop :=
  ∀ log w a w', built x w = (.ok a, w') → y.ends log w = ((.ok a, log ++ cs), w')

namespace Enters
variable {x : BuildM α} {y : Transform (List Node) α} {cs : List Node}

theorem lift (x : BuildM α) : Enters x (liftM x) [] := by
  intro log w a w' h
  rw [ends_lift, h, List.append_nil]

theorem pure (a : α) : Enters (Pure.pure a) (Pure.pure a) [] := lift _

theorem after (c : Node) (h : Enters x y cs) : Enters x (entered c >>= fun _ => y) (c :: cs) := by
  intro log w a w' hrun
  rw [ends_bind]
  refine (h (log ++ [c]) w a w' hrun).trans ?_
  rw [List.append_assoc]
  rfl

theorem bind {f : α → BuildM β} {g : α → Transform (List Node) β} {ds : List Node} (hx : Enters x y cs)
    (hf : ∀ a, Enters (f a) (g a) ds) : Enters (x >>= f) (y >>= g) (cs ++ ds) := by
  intro log w b w' h
  obtain ⟨a, w₁, hfirst, hrest⟩ := built_bind_eq_ok.mp h
  rw [ends_bind, hx log w a w₁ hfirst, ← List.append_assoc]
  exact hf a (log ++ cs) w₁ b w' hrest

theorem map (f : α → β) (hx : Enters x y cs) : Enters (f <$> x) (f <$> y) cs := by
  rw [map_eq_pure_bind, map_eq_pure_bind, ← List.append_nil cs]
  exact hx.bind fun a => pure (f a)

theorem mapM {f : α → BuildM β} {g : α → Transform (List Node) β} {nodes : α → List Node} {xs : List α}
    (h : ∀ x ∈ xs, Enters (f x) (g x) (nodes x)) : Enters (xs.mapM f) (xs.mapM g) (xs.flatMap nodes) := by
  induction xs with
  | nil => exact pure []
  | cons x xs ih =>
    rw [List.forall_mem_cons] at h
    rw [List.mapM_cons, List.mapM_cons, List.flatMap_cons]
    refine h.1.bind fun y => ?_
    rw [← List.append_nil (xs.flatMap nodes)]
    exact (ih h.2).bind fun ys => pure (y :: ys)

variable {g : Node → BuildM Node} {g' : Node → Transform (List Node) Node}

theorem mapItems {items : List Value} (h : ∀ c ∈ items.filterMap Value.asNode?, Enters (g c) (g' c) c.entries) :
    Enters (items.mapM (Value.mapNode g)) (items.mapM (Value.mapNode g'))
      ((items.filterMap Value.asNode?).flatMap Node.entries) := by
  rw [List.filterMap_eq_flatMap_toList, List.flatMap_assoc]
  refine mapM fun v hv => ?_
  cases v with
  | node c =>
    have hc := h c (List.mem_filterMap.mpr ⟨_, hv, rfl⟩)
    rw [Value.asNode?, Option.toList_some, List.flatMap_singleton]
    exact hc.map Value.node
  | _ => exact pure _

theorem mapHeld {v : Value} (h : ∀ c ∈ v.nodes, Enters (g c) (g' c) c.entries) :
    Enters (v.mapHeld g) (v.mapHeld g') (v.nodes.flatMap Node.entries) := by
  cases v with
  | list items => exact (mapItems h).map Value.list
  | set items => exact (mapItems h).map Value.set
  | node c =>
    rw [Value.nodes, List.flatMap_singleton]
    exact (h c (List.mem_singleton.mpr rfl)).map Value.node
  | _ => exact pure _

theorem mapField {p : Field × Value} (kind : String) (hadm : p.1.type.admits p.2 = true)
    (h : ∀ c ∈ p.2.nodes, Enters (g c) (g' c) c.entries) :
    Enters (Node.mapField kind .children g p) (Node.mapField kind .children g' p) (p.2.nodes.flatMap Node.entries) := by
  by_cases hchild : p.1.isChild = true
  · have hsel : Selector.children.selects p.1 = true := hchild
    rw [Node.mapField, Node.mapField, if_pos hsel, if_pos hsel, ← List.append_nil (List.flatMap ..)]
    exact (mapHeld h).bind fun v' => lift _
  · have hsel : ¬Selector.children.selects p.1 = true := hchild
    rw [Node.mapField, Node.mapField, if_neg hsel, if_neg hsel, Field.nodes_eq_nil hadm hchild]
    exact pure _

theorem copy (n : Node) (h : n.Everywhere Node.Fits) : Enters n.copy (n.copyEntering entered) n.entries := by
  have hfields : ∀ p ∈ n.fields, Enters (Node.mapField n.kind .children Node.copy p)
      (Node.mapField n.kind .children (Node.copyEntering entered) p) (p.2.nodes.flatMap Node.entries) := by
    intro p hp
    refine mapField n.kind (List.forall₂_zip h.here hp) fun c hc => ?_
    have hchild : c ∈ n.children := List.mem_flatMap.mpr ⟨p.2, Node.mem_values_of_mem_fields hp, hc⟩
    have := Node.sizeOf_lt_of_mem_children hchild
    exact copy c (h.child hchild)
  rw [Node.copy_eq, Node.copyEntering, Node.entries_eq, h.here.children_eq_fields, List.flatMap_assoc]
  refine after n ?_
  rw [Node.mapSmaller_eq n .children (Node.copyEntering entered), ← List.append_nil (List.flatMap ..)]
  exact (mapM hfields).bind fun values => lift _
termination_by sizeOf n

end Enters
end Client.Transform

namespace Node
open Client Client.Transform

/-- A map of the children of a node that can be obtained calls the transform on a prefix of them, in their order: on all of
    them, unless a call fails, which is then the last one, or a field does not admit what it would hold, and then its last
    node is the last one called. If the map succeeds, the results are the children of the new node and all else is as
    before. So a walk of the tree and a copy of it enter the same nodes, each as often as it is held, and a node before
    what it holds. -/
theorem map_children_calls {n : Node} (h : n.Obtainable) :
    (∀ (σ : Type) (f : Node → Transform σ Node) (s : σ) (w : Workspace), ∃ calls r s' w',
      (n.map .children f).ends s w = ((r, s'), w') ∧
      (n.map .children (recorded f)).ends (s, []) w = ((r, (s', calls)), w') ∧
      calls.map Call.node <+: n.children ∧ MapEnds n calls r) ∧
    ∀ w, (n.walkEntering entered).ends [] w = ((.ok (), n.entries), w) ∧
      ∃ n' w', built n.copy w = (.ok n', w') ∧ (n.copyEntering entered).ends [] w = ((.ok n', n.entries), w') := by
  have hfits := h.everywhere_fits
  refine ⟨fun σ f s w => ?_, fun w => ⟨?_, ?_⟩⟩
  · rcases hrun : (n.map .children f).ends s w with ⟨⟨r, s'⟩, w'⟩
    obtain ⟨calls, hrecorded, hends⟩ := records_map f hfits.here s [] w r s' w' hrun
    exact ⟨calls, r, s', w', rfl, hrecorded, hends.called hfits.here, hends⟩
  · rw [walkEntering_eq_forM]
    exact ends_forM_entered n.entries [] w
  · obtain ⟨n', hcopy, -⟩ := copy_numbers n hfits w
    exact ⟨n', _, hcopy, Enters.copy n hfits [] w n' _ hcopy⟩

section Shelf

theorem shelf_entries : shelf.entries = [shelf, leafNode 0 .absent, leafNode 0 .absent, leafNode 1 (.str "old"),
    leafNode 1 (.str "old"), leafNode 0 .absent] := by
  have leaf : ∀ id mark, mark.nodes = [] → (leafNode id mark).entries = [leafNode id mark] := by
    intro id mark h
    rw [entries_eq, leafNode, children, values, List.flatMap_singleton, h]
    rfl
  rw [entries_eq]
  show shelf :: [leafNode 0 .absent, leafNode 0 .absent, leafNode 1 (.str "old"), leafNode 1 (.str "old"),
    leafNode 0 .absent].flatMap entries = _
  simp [leaf 0 .absent rfl, leaf 1 (.str "old") rfl]

/-- Puts one leaf in the place of all. -/
def sameLeaf (_ : Node) : Transform Unit Node := pure (leafNode 0 .absent)

/-- The set of leaves refuses the leaf that it would hold twice, so the leaves after it are not called. -/
theorem map_children_calls_shelf : shelf.Obtainable ∧
    (∃ calls, (shelf.map .children (recorded sameLeaf)).ends ((), []) ⟨3, []⟩ =
        ((.error (.schema (.fieldType "Shelf" "leaves" "Set[Leaf]" "Set")), ((), calls)), ⟨3, []⟩) ∧
      calls.map Call.node = [leafNode 0 .absent, leafNode 0 .absent, leafNode 1 (.str "old")] ∧
      calls.map Call.node <+: shelf.children) ∧
    (shelf.walkEntering entered).ends [] ⟨3, []⟩ = ((.ok (), [shelf, leafNode 0 .absent, leafNode 0 .absent,
      leafNode 1 (.str "old"), leafNode 1 (.str "old"), leafNode 0 .absent]), ⟨3, []⟩) := by
  obtain ⟨hmap, hwalk⟩ := map_children_calls shelf_obtainable
  obtain ⟨calls, r, s', w', -, hrecorded, hprefix, -⟩ := hmap Unit sameLeaf () ⟨3, []⟩
  have run : (shelf.map .children (recorded sameLeaf)).ends ((), []) ⟨3, []⟩ =
    ((.error (.schema (.fieldType "Shelf" "leaves" "Set[Leaf]" "Set")), ((), _)), ⟨3, []⟩) := rfl
  cases hrecorded.symm.trans run
  refine ⟨shelf_obtainable, ⟨_, run, rfl, hprefix⟩, ?_⟩
  rw [← shelf_entries]
  exact (hwalk ⟨3, []⟩).1

end Shelf

end Node

end TypedTree
