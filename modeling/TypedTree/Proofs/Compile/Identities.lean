import TypedTree.Proofs.Compile.Construction

/-! Identities in programs. A program works with the nodes that it has got hold of: it has nodes built, updated and
    copied, runs passes, and maps and rewrites by transforms of its own, which may do all of this in turn and may fail
    half-way. Whatever it does, from the start on, it only constructs, so the order of construction is the order of
    identities. Identities are numbers without bound, so the supply never runs out. -/

namespace TypedTree.Client
open Compile (Session Pass)

/-! ### Requests -/

/-- What a program may ask for that does not call it back. -/
inductive Request where
  | build (v : Variant) (args : List Argument)
  | buildNamed (schema : Schema) (name : String) (args : List Argument)
  | update (n : Node) (updates : List Argument)
  | copy (n : Node)
  | stateTables (root : Node)
  | deadCode (decoder : Node) (tables : Option Decoder.StateTables)
  | typing (program : Node)
  | session (s : Session) (goal : Pass) (timed : Bool)

namespace Request

/-- What is handed over with a request. -/
def handed : Request → List Value
  | .build _ args | .buildNamed _ _ args => args.map Prod.snd
  | .update n updates => .node n :: updates.map Prod.snd
  | .copy n | .stateTables n | .typing n => [.node n]
  | .deadCode n tables => (n :: tables.toList.flatMap Decoder.StateTables.nodes).map .node
  | .session s _ _ => s.nodes.map .node

/-- Does what is asked for, and gives back the nodes of the result. -/
def perform : Request → BuildM (List Node)
  | .build v args => do return [← v.build args]
  | .buildNamed schema name args => do return [← schema.build name args]
  | .update n updates => do return [← n.update updates]
  | .copy n => do return [← n.copy]
  | .stateTables root => do return (← Decoder.StateTables.build root).nodes
  | .deadCode decoder tables => do
    let r ← Decoder.Liveness.eliminate decoder tables
    return r.decoder :: r.tables.nodes
  | .typing program => do return [(← Expr.Typing.analyze program).tree]
  | .session s goal timed => do
    let report ← (s.run goal timed : StateM Workspace Session.Report)
    return report.session.nodes

variable {K : Set Node}

theorem perform_adds (c : Request) (given : ∀ v ∈ c.handed, v.Known K) :
    Adds K c.perform fun ns => { n | n ∈ ns } := by
  have listed {α : Type} {x : BuildM α} {G : α → Set Node} {nodes : α → List Node} (hx : Adds K x G)
      (h : ∀ a, ∀ n ∈ nodes a, n ∈ G a) : Adds K (do return nodes (← x)) fun ns => { n | n ∈ ns } :=
    Adds.bind hx fun a => Adds.pure fun n hn => within_of_mem (.inr (h a n hn))
  have one {α : Type} {x : BuildM α} {node : α → Node} (hx : Adds K x fun a => {node a}) :
      Adds K (do return [node (← x)]) fun ns => { n | n ∈ ns } :=
    listed hx fun a n hn => List.mem_singleton.mp hn
  cases c with
  | build v args =>
    simp only [handed, List.forall_mem_map] at given
    exact one (build_adds given)
  | buildNamed schema name args =>
    simp only [handed, List.forall_mem_map] at given
    exact one (buildNamed_adds given)
  | update n updates =>
    simp only [handed, List.forall_mem_cons, List.forall_mem_map, Value.known_node] at given
    exact one (update_adds given.1 given.2)
  | copy n =>
    simp only [handed, List.forall_mem_singleton, Value.known_node] at given
    exact one (copy_adds given)
  | stateTables root =>
    simp only [handed, List.forall_mem_singleton, Value.known_node] at given
    exact listed (Decoder.StateTables.build_adds given) fun _ _ hn => hn
  | deadCode decoder tables =>
    simp only [handed, List.map_cons, List.forall_mem_cons, List.forall_mem_map, Value.known_node] at given
    have htables : ∀ t ∈ tables, ∀ n ∈ t.nodes, Within K n := fun t ht n hn =>
      given.2 n (List.mem_flatMap.mpr ⟨t, Option.mem_toList.mpr ht, hn⟩)
    exact listed (Decoder.Liveness.eliminate_adds given.1 htables) fun _ _ hn => List.mem_cons.mp hn
  | typing program =>
    simp only [handed, List.forall_mem_singleton, Value.known_node] at given
    exact one (Expr.Typing.analyze_adds given)
  | session s goal timed =>
    simp only [handed, List.forall_mem_map, Value.known_node] at given
    exact listed (Session.run_adds given goal timed) fun _ _ hn => hn

end Request

/-! ### Transforms -/

/-- What a program hands to `map`: it may fail, and has a state of its own, which survives failures. -/
def Transform (σ α : Type) : Type := EditM Error σ α

namespace Transform
variable {σ α β : Type}

instance : Monad (Transform σ) := inferInstanceAs (Monad (EditM Error σ))

instance : LawfulMonad (Transform σ) := inferInstanceAs (LawfulMonad (EditM Error σ))

instance : MonadStateOf σ (Transform σ) := inferInstanceAs (MonadStateOf σ (EditM Error σ))

instance : MonadExceptOf Error (Transform σ) := inferInstanceAs (MonadExceptOf Error (EditM Error σ))

instance : MonadLift BuildM (Transform σ) where
  monadLift x := ExceptT.mk (liftM (m := StateM Workspace) x.run)

/-- How a transform ends that starts in the state `s` and the workspace `w`. -/
def ends (x : Transform σ α) (s : σ) (w : Workspace) : (Except Error α × σ) × Workspace := edited x s w

theorem ends_bind (x : Transform σ α) (f : α → Transform σ β) (s : σ) (w : Workspace) :
    (x >>= f).ends s w = match x.ends s w with
      | ((.ok a, s'), w') => (f a).ends s' w'
      | ((.error e, s'), w') => ((.error e, s'), w') := by
  refine (edited_bind x f s w).trans ?_
  rw [ends]
  rcases edited x s w with ⟨⟨_ | _, _⟩, _⟩ <;> rfl

theorem ends_lift (x : BuildM α) (s : σ) (w : Workspace) :
    (liftM x : Transform σ α).ends s w = (((built x w).1, s), (built x w).2) := rfl

/-- A transform is followed with the nodes that its state holds. -/
def tracking (N : σ → List Node) : Tracking (Transform σ) where
  Adds K x G := ∀ made s w r s' w', History made w → (∀ k ∈ K, k ∈ made) → N s ⊆ made → x.ends s w = ((r, s'), w') →
    ∃ made', Constructs made w made' w' ∧ N s' ⊆ made' ∧ ∀ a, r = .ok a → ∀ n ∈ G a, n ∈ made'
  pure hG made s w r s' w' hw hK hs hrun := by
    cases hrun
    refine ⟨made, .done, hs, fun a ha n hn => ?_⟩
    cases ha
    exact hG n hn made w hw hK
  bind {_ _ K G _ _ _} hx hf made s w r s' w' hw hK hs hrun := by
    rw [ends_bind] at hrun
    rcases hfirst : ends _ s w with ⟨⟨_ | a, s₁⟩, w₁⟩
    all_goals
      obtain ⟨made₁, hgrown, hs₁, hG⟩ := hx made s w _ s₁ w₁ hw hK hs hfirst
      rw [hfirst] at hrun
    · cases hrun
      exact ⟨made₁, hgrown, hs₁, nofun⟩
    · have hknown : ∀ k ∈ K ∪ G a, k ∈ made₁ := by
        rintro k (hk | hk)
        · exact hgrown.subset (hK k hk)
        · exact hG a rfl k hk
      obtain ⟨made₂, hgrown', hs₂, hH⟩ := hf a made₁ s₁ w₁ r s' w' (hgrown.history hw) hknown hs₁ hrun
      exact ⟨made₂, hgrown.trans hgrown', hs₂, hH⟩
  lift hx made s w r s' w' hw hK hs hrun := by
    rw [ends_lift] at hrun
    rcases hbuilt : built _ w with ⟨a, w₁⟩
    obtain ⟨made', hgrown, hG⟩ := hx made w a w₁ hw hK hbuilt
    rw [hbuilt] at hrun
    cases hrun
    exact ⟨made', hgrown, fun n hn => hgrown.subset (hs hn), hG⟩
  mono hx hL hG made s w r s' w' hw hK hs hrun := by
    obtain ⟨made', hgrown, hs', hknown⟩ := hx made s w r s' w' hw (fun l hl => hL l hl made w hw hK) hs hrun
    refine ⟨made', hgrown, hs', fun a ha n hn => hG a n hn made' w' (hgrown.history hw) ?_⟩
    exact hgrown.both hK (hknown a ha)

end Transform

/-! ### Programs -/

/-- The node that an action gave back, unless it failed. -/
def answer (r : Except Error Node) : List Node := r.toOption.toList

/-- A program that has got hold of the nodes `p`, in the workspace `w`, may have got hold of the nodes `q` when the
    workspace is `v`. It finds nodes in the values of others, and it may forget nodes. What it asks for may fail. A
    transform works as a program does, with the nodes that were at hand when it was handed over, those in its state and
    the node it is called with; in the end its state and its answer are what is left of it. -/
inductive Steps : List Node → Workspace → List Node → Workspace → Prop
  | done {p : List Node} {w : Workspace} : Steps p w p w
  | look {p q : List Node} {w v : Workspace} {n c : Node} {x : Value} (before : Steps p w q v) (old : n ∈ q)
      (hx : x ∈ n.values) (hc : x.Holds c) : Steps p w (q ++ [c]) v
  | forget {p q q' : List Node} {w v : Workspace} (before : Steps p w q v) (fewer : q' ⊆ q) : Steps p w q' v
  | request {p q : List Node} {w v v' : Workspace} (before : Steps p w q v) (c : Request)
      (given : ∀ x ∈ c.handed, ∀ n, x.Holds n → n ∈ q) {r : Except Error (List Node)}
      (run : built c.perform v = (r, v')) : Steps p w (q ++ r.toOption.getD []) v'
  | map {p q : List Node} {w v v' : Workspace} {σ : Type} {N : σ → List Node} {n : Node} {sel : Selector}
      {f : Node → Transform σ Node} {s s' : σ} {r : Except Error Node} (before : Steps p w q v) (old : n ∈ q)
      (start : N s ⊆ q)
      (steps : ∀ c ∈ n.children, ∀ t u a t' u', (f c).ends t u = ((a, t'), u') →
        Steps (q ++ N t ++ [c]) u (N t' ++ answer a) u')
      (run : (n.map sel f).ends s v = ((r, s'), v')) : Steps p w (q ++ N s' ++ answer r) v'
  | rewrite {p q : List Node} {w v v' : Workspace} {σ : Type} {N : σ → List Node} {n : Node}
      {rule : Node → RewriteRule (Transform σ)} {s s' : σ} {r : Except Error Node} (before : Steps p w q v) (old : n ∈ q)
      (start : N s ⊆ q)
      (replaces : ∀ m f, rule m = .replace f → ∀ t u a t' u', (f m).ends t u = ((a, t'), u') →
        Steps (q ++ N t ++ [m]) u (N t' ++ answer a) u')
      (finishes : ∀ m sel f, rule m = .rebuild sel f → ∀ rebuilt t u a t' u', (f rebuilt).ends t u = ((a, t'), u') →
        Steps (q ++ N t ++ [rebuilt]) u (N t' ++ answer a) u')
      (run : (n.rewriteWith rule).ends s v = ((r, s'), v')) : Steps p w (q ++ N s' ++ answer r) v'

/-- A transform that steps from the nodes at hand to its state and its answer constructs. -/
theorem Transform.adds_of_steps {σ : Type} {N : σ → List Node} {x : Transform σ Node} {q : List Node} {c : Node}
    {K : Set Node} (h : ∀ t u a t' u', x.ends t u = ((a, t'), u') → ∀ made, History made u → q ++ N t ++ [c] ⊆ made →
      ∃ made', Constructs made u made' u' ∧ N t' ++ answer a ⊆ made') (hq : ∀ n ∈ q, Within K n) (hc : Within K c) :
    (tracking N).Adds K x fun n' => {n'} := by
  intro made t u a t' u' hu hK ht hrun
  have hknown : q ++ N t ++ [c] ⊆ made := by
    refine List.append_subset.mpr ⟨List.append_subset.mpr ⟨fun n hn => hq n hn made u hu hK, ht⟩, ?_⟩
    exact List.cons_subset.mpr ⟨hc made u hu hK, List.nil_subset _⟩
  obtain ⟨made', hgrown, hend⟩ := h t u a t' u' hrun made hu hknown
  obtain ⟨ht', hanswer⟩ := List.append_subset.mp hend
  refine ⟨made', hgrown, ht', ?_⟩
  rintro c' rfl n rfl
  exact hanswer (by simp [answer, Except.toOption])

theorem Transform.constructs_of_adds {σ : Type} {N : σ → List Node} {x : Transform σ Node} {q made : List Node}
    {s s' : σ} {w w' : Workspace} {r : Except Error Node}
    (h : (tracking N).Adds { n | n ∈ q } x fun n' => {n'}) (hw : History made w) (hq : q ⊆ made)
    (start : N s ⊆ q) (run : x.ends s w = ((r, s'), w')) :
    ∃ made', Constructs made w made' w' ∧ q ++ N s' ++ answer r ⊆ made' := by
  obtain ⟨made', hgrown, hs', hnew⟩ := h made s w r s' w' hw (fun _ hn => hq hn) (fun n hn => hq (start hn)) run
  refine ⟨made', hgrown, List.append_subset.mpr ⟨List.append_subset.mpr ⟨fun n hn => hgrown.subset (hq hn), hs'⟩, ?_⟩⟩
  cases r with
  | error e => exact List.nil_subset _
  | ok n => exact List.cons_subset.mpr ⟨hnew n rfl n rfl, List.nil_subset _⟩

/-- The run: a program only constructs, and has got hold of nothing else. -/
theorem Steps.constructs {p q : List Node} {w v : Workspace} (h : Steps p w q v) :
    ∀ made, History made w → p ⊆ made → ∃ made', Constructs made w made' v ∧ q ⊆ made' := by
  induction h with
  | done => exact fun made _ hp => ⟨made, .done, hp⟩
  | look _ old hx hc ih =>
    intro made hw hp
    obtain ⟨made', hgrown, hq⟩ := ih made hw hp
    refine ⟨made', hgrown, List.append_subset.mpr ⟨hq, List.cons_subset.mpr ⟨?_, List.nil_subset _⟩⟩⟩
    exact (hgrown.history hw).held (hq old) hx hc
  | forget _ fewer ih =>
    intro made hw hp
    obtain ⟨made', hgrown, hq⟩ := ih made hw hp
    exact ⟨made', hgrown, fun n hn => hq (fewer hn)⟩
  | @request p q w v v' _ c given r run ih =>
    intro made hw hp
    obtain ⟨made', hgrown, hq⟩ := ih made hw hp
    have hgiven : ∀ x ∈ c.handed, x.Known { n | n ∈ q } := fun x hx n hn => within_of_mem (given x hx n hn)
    obtain ⟨made'', hgrown', hnew⟩ := c.perform_adds hgiven made' v r v' (hgrown.history hw) (fun _ hn => hq hn) run
    refine ⟨made'', hgrown.trans hgrown', List.append_subset.mpr ⟨fun n hn => hgrown'.subset (hq hn), ?_⟩⟩
    cases r with
    | error e => exact List.nil_subset _
    | ok ns => exact hnew ns rfl
  | @map p q w v v' σ N n sel f s s' r _ old start _ run ih ihsteps =>
    intro made hw hp
    obtain ⟨made', hgrown, hq⟩ := ih made hw hp
    have hn : Within { n | n ∈ q } n := within_of_mem old
    -- What the transform does at each child is a program of its own, for which the statement is at hand by induction.
    have htransform (c : n.Smaller) (hc : c.1 ∈ n.children) :
        (Transform.tracking N).Adds { n | n ∈ q } (f c.1) fun n' => {n'} :=
      Transform.adds_of_steps (ihsteps c.1 hc) (fun _ hm => within_of_mem hm) (hn.child hc)
    have hmap : (Transform.tracking N).Adds { n | n ∈ q } (n.map sel f) fun n' => {n'} :=
      (Transform.tracking N).mapSmaller hn htransform
    obtain ⟨made'', hgrown', hend⟩ := Transform.constructs_of_adds hmap (hgrown.history hw) hq start run
    exact ⟨made'', hgrown.trans hgrown', hend⟩
  | @rewrite p q w v v' σ N n rule s s' r _ old start _ _ run ih ihreplaces ihfinishes =>
    intro made hw hp
    obtain ⟨made', hgrown, hq⟩ := ih made hw hp
    -- A rule may be called with any node; that it is called only with constructed ones is the rewriting's part.
    have hrule (m : Node) : (Transform.tracking N).Obeys { n | n ∈ q } m (rule m) := by
      cases hr : rule m with
      | replace f =>
        exact Transform.adds_of_steps (ihreplaces m f hr) (fun _ hm => within_of_mem (.inl hm)) (within_of_mem (.inr rfl))
      | rebuild sel f =>
        exact fun rebuilt => Transform.adds_of_steps (ihfinishes m sel f hr rebuilt)
          (fun _ hm => within_of_mem (.inl hm)) (within_of_mem (.inr rfl))
    have hrewrite : (Transform.tracking N).Adds { n | n ∈ q } (n.rewriteWith rule) fun n' => {n'} := by
      refine (Transform.tracking N).weaken ((Transform.tracking N).rewriteWith hrule n) ?_
      rintro k (hk | rfl)
      · exact within_of_mem hk
      · exact within_of_mem old
    obtain ⟨made'', hgrown', hend⟩ := Transform.constructs_of_adds hrewrite (hgrown.history hw) hq start run
    exact ⟨made'', hgrown.trans hgrown', hend⟩

/-! ### Single operations -/

/-- The action gives a node with the next identity, or it fails and takes none. -/
def AllocatesOnce (x : BuildM Node) : Prop :=
  ∀ w, (∃ n, built x w = (.ok n, { w with nextId := w.nextId + 1 }) ∧ n.id = w.nextId) ∨ ∃ e, built x w = (.error e, w)

theorem allocatesOnce_of_settled (v : Variant) (values : Except Error (List Value)) :
    AllocatesOnce (do Node.allocate v (← values)) := by
  intro w
  cases values with
  | error e => exact .inr ⟨e, rfl⟩
  | ok values => exact .inl ⟨_, rfl, rfl⟩

theorem allocatesOnce_build (v : Variant) (args : List Argument) : AllocatesOnce (v.build args) :=
  allocatesOnce_of_settled v _

theorem allocatesOnce_buildNamed (schema : Schema) (name : String) (args : List Argument) :
    AllocatesOnce (schema.build name args) := by
  unfold Schema.build
  cases schema.variant name with
  | error e => exact fun w => .inr ⟨e, rfl⟩
  | ok v => exact allocatesOnce_build v args

theorem allocatesOnce_update (n : Node) {updates : List Argument} (h : updates ≠ []) :
    AllocatesOnce (n.update updates) := by
  rw [Node.update, if_neg (by simpa using h)]
  exact allocatesOnce_of_settled n.variant _

/-! ### Identities -/

/-- Identities are unique and trees are acyclic, whatever a program has done since the start, from the first node on. All
    nodes that there are have been constructed one after the other; each has a greater identity than all before, so that
    nodes with one identity are the same in all they have; and what a node holds, at any depth, is older than the node. A
    construction takes one identity, and none if it fails; an update that changes nothing gives the node itself. -/
theorem Steps.identities {log : List LogLine} {q : List Node} {v : Workspace} (h : Steps [] ⟨0, log⟩ q v) :
    (∃ made, Constructs [] ⟨0, log⟩ made v ∧ q ⊆ made ∧
      made.Pairwise (fun m n => m.id < n.id) ∧ (∀ n ∈ made, n.id < v.nextId) ∧
      (∀ n ∈ made, ∀ m ∈ made, n.id = m.id → n.variant = m.variant ∧ n.values = m.values) ∧
      ∀ n ∈ made, ∀ x ∈ n.values, x.Everywhere fun c => c ∈ made ∧ c.id < n.id) ∧
    (∀ v args, AllocatesOnce (Variant.build v args)) ∧
    (∀ schema name args, AllocatesOnce (Schema.build schema name args)) ∧
    (∀ n updates, updates ≠ [] → AllocatesOnce (Node.update n updates)) ∧
    ∀ n w, built (Node.update n []) w = (.ok n, w) := by
  obtain ⟨made, hgrown, hq⟩ := h.constructs [] (.start log) (List.nil_subset _)
  have history := hgrown.history (.start log)
  have ordered : made.Pairwise fun m n => m.id < n.id :=
    List.pairwise_map.mp (history.ids ▸ List.pairwise_lt_range)
  have unique : ∀ n ∈ made, ∀ m ∈ made, n.id = m.id → n.variant = m.variant ∧ n.values = m.values := by
    intro n hn m hm hid
    obtain rfl := history.eq_of_id hn hm hid
    exact ⟨rfl, rfl⟩
  refine ⟨⟨made, hgrown, hq, ordered, fun n hn => history.id_lt hn, unique, history.older⟩, allocatesOnce_build,
    allocatesOnce_buildNamed, fun n updates => allocatesOnce_update n, fun _ _ => rfl⟩

section Halfway

/-- Marks the first leaf that it is called with, and fails on the next one. -/
def markFirst (n : Node) : Transform (List Node) Node := do
  if (← get).isEmpty then
    let marked ← n.update [("mark", .str "seen")]
    modify (· ++ [marked])
    pure marked
  else throw (.pass (.unknownNode "mark" n.kind))

theorem markFirst_steps (id : NodeId) (mark : Value) (q t : List Node) (u : Workspace) {a : Except Error Node}
    {t' : List Node} {u' : Workspace} (h : (markFirst (leafNode id mark)).ends t u = ((a, t'), u')) :
    Steps (q ++ t ++ [leafNode id mark]) u (t' ++ answer a) u' := by
  cases t with
  | nil =>
    have run : built (Request.update (leafNode id mark) [("mark", .str "seen")]).perform u =
      (.ok [leafNode u.nextId (.str "seen")], { u with nextId := u.nextId + 1 }) := rfl
    have ends : (markFirst (leafNode id mark)).ends [] u =
      ((.ok (leafNode u.nextId (.str "seen")), [leafNode u.nextId (.str "seen")]), { u with nextId := u.nextId + 1 }) := rfl
    rw [ends] at h
    cases h
    refine (Steps.request .done _ ?_ run).forget (by simp [answer, Except.toOption])
    simp [Request.handed, Value.not_holds (v := .str "seen") rfl rfl]
  | cons n t =>
    cases h
    refine Steps.done.forget fun m hm => ?_
    simp only [answer, Except.toOption, Option.toList_none, List.append_nil] at hm
    exact List.mem_append_left _ (List.mem_append_right _ hm)

/-- The nodes that are at hand in the end: two leaves, one of them marked, a group of both, the leaf that was marked
    before mapping the group failed, and a group that shares a leaf with the first one. -/
def halfway : List Node :=
  [leafNode 0 .absent, leafNode 1 (.str "old"), groupNode 2 [leafNode 0 .absent, leafNode 1 (.str "old")],
    leafNode 3 (.str "seen"), groupNode 4 [leafNode 3 (.str "seen"), leafNode 0 .absent]]

theorem halfway_steps : Steps [] ⟨0, []⟩ halfway ⟨5, []⟩ := by
  have leaf : built (Request.build leafVariant []).perform ⟨0, []⟩ = (.ok [leafNode 0 .absent], ⟨1, []⟩) := rfl
  have refused : built (Request.update (leafNode 0 .absent) [("mark", .int 3)]).perform ⟨1, []⟩ = (.error _, ⟨1, []⟩) := rfl
  have old : built (Request.update (leafNode 0 .absent) [("mark", .str "old")]).perform ⟨1, []⟩ =
    (.ok [leafNode 1 (.str "old")], ⟨2, []⟩) := rfl
  have group : built (Request.build groupVariant [("leaves", .set [.node (leafNode 0 .absent),
    .node (leafNode 1 (.str "old"))])]).perform ⟨2, []⟩ = (.ok [groupNode 2 [leafNode 0 .absent, leafNode 1 (.str "old")]],
    ⟨3, []⟩) := rfl
  have mapped : ((groupNode 2 [leafNode 0 .absent, leafNode 1 (.str "old")]).map .children markFirst).ends [] ⟨3, []⟩ =
    ((.error _, [leafNode 3 (.str "seen")]), ⟨4, []⟩) := rfl
  have shared : built (Request.build groupVariant [("leaves", .set [.node (leafNode 3 (.str "seen")),
    .node (leafNode 0 .absent)])]).perform ⟨4, []⟩ = (.ok [groupNode 4 [leafNode 3 (.str "seen"), leafNode 0 .absent]],
    ⟨5, []⟩) := rfl
  have text (s : String) (c : Node) : ¬(Value.str s).Holds c := Value.not_holds rfl rfl c
  have number (i : Int) (c : Node) : ¬(Value.int i).Holds c := Value.not_holds rfl rfl c
  have s₁ := Steps.request (p := []) .done _ (by simp [Request.handed]) leaf
  have s₂ := s₁.request _ (by simp [Request.handed, number, Except.toOption]) refused
  have s₃ := s₂.request _ (by simp [Request.handed, text, Except.toOption]) old
  have s₄ := s₃.request _ (by simp [Request.handed, Except.toOption]) group
  have s₅ := s₄.map (N := id) (by simp [Except.toOption]) (List.nil_subset _) (fun c hc t u a t' u' h => ?_) mapped
  · have s₆ := s₅.request _ (by simp [Request.handed, Except.toOption, answer]) shared
    exact s₆
  · obtain rfl | rfl : c = leafNode 0 .absent ∨ c = leafNode 1 (.str "old") := by
      simpa [groupNode, Node.children, Node.values, Value.nodes, Value.asNode?] using hc
    · exact markFirst_steps _ _ _ t u h
    · exact markFirst_steps _ _ _ t u h

/-- Mapping a group fails half-way, and the leaf that was marked until then is used afterwards. -/
theorem Steps.identities_halfway : Steps [] ⟨0, []⟩ halfway ⟨5, []⟩ ∧
    ∃ made, Constructs [] ⟨0, []⟩ made ⟨5, []⟩ ∧ halfway ⊆ made ∧ made.Pairwise fun m n => m.id < n.id := by
  obtain ⟨made, hgrown, hq, ordered, -⟩ := (Steps.identities halfway_steps).1
  exact ⟨halfway_steps, made, hgrown, hq, ordered⟩

end Halfway

end TypedTree.Client
