import Mathlib.Data.List.Nodup
import Mathlib.Data.Set.Insert
import TypedTree.Proofs.Tree.Mapping
import TypedTree.Proofs.Tree.Obtainable

/-! The nodes that a run constructs, in order. A construction takes the next identity, and its values hold only nodes
    constructed before, so identities tell the order, each belongs to one node, and what a node holds is older than the
    node. Whatever is made of the operations on nodes only constructs: an action is followed from any history that has
    the nodes it starts with to one that has the nodes it ends with, also where it fails in between. -/

namespace TypedTree

/-! ### Histories -/

/-- The workspace `w` comes to be `w'` by constructing nodes, one after the other, and adding lines to the log. The
    nodes made until then are `made`, afterwards `made'`. -/
inductive Constructs (made : List Node) (w : Workspace) : List Node → Workspace → Prop
  | done : Constructs made w made w
  | noted {made' : List Node} {w' : Workspace} (before : Constructs made w made' w') (lines : List LogLine) :
      Constructs made w made' ((Workspace.noteAll lines).run w').2
  | construct {made' : List Node} {w' : Workspace} {v : Variant} {values : List Value}
      (before : Constructs made w made' w') (given : ∀ x ∈ values, ∀ c, x.Holds c → c ∈ made') :
      Constructs made w (made' ++ [((Node.allocate v values).run w').1]) ((Node.allocate v values).run w').2

/-- `made` are all nodes constructed so far: they have the identities given out, in order, and what they hold, at any
    depth, is among them and older. -/
structure History (made : List Node) (w : Workspace) : Prop where
  ids : made.map Node.id = List.range w.nextId
  older : ∀ n ∈ made, ∀ v ∈ n.values, v.Everywhere fun c => c ∈ made ∧ c.id < n.id

section Histories
variable {made made' made'' : List Node} {w w' w'' : Workspace}

theorem Constructs.trans (h : Constructs made w made' w') (h' : Constructs made' w' made'' w'') :
    Constructs made w made'' w'' := by
  induction h' with
  | done => exact h
  | noted _ lines ih => exact ih.noted lines
  | construct _ given ih => exact ih.construct given

theorem Constructs.subset (h : Constructs made w made' w') : made ⊆ made' := by
  induction h with
  | done => exact List.Subset.refl _
  | noted _ _ ih => exact ih
  | construct _ _ ih => exact fun n hn => List.mem_append_left _ (ih hn)

/-- What was there before and what is new are there in the end. -/
theorem Constructs.both {K L : Set Node} (h : Constructs made w made' w') (hK : ∀ k ∈ K, k ∈ made)
    (hL : ∀ l ∈ L, l ∈ made') : ∀ k ∈ K ∪ L, k ∈ made' := by
  rintro k (hk | hk)
  · exact h.subset (hK k hk)
  · exact hL k hk

namespace History

theorem start (log : List LogLine) : History [] ⟨0, log⟩ where
  ids := rfl
  older := by simp

theorem id_lt (h : History made w) {n : Node} (hn : n ∈ made) : n.id < w.nextId := by
  rw [← List.mem_range, ← h.ids]
  exact List.mem_map_of_mem hn

/-- Identities belong to one node each. -/
theorem eq_of_id (h : History made w) {n m : Node} (hn : n ∈ made) (hm : m ∈ made) (hid : n.id = m.id) : n = m :=
  List.inj_on_of_nodup_map (h.ids ▸ List.nodup_range) hn hm hid

theorem held (h : History made w) {n c : Node} {v : Value} (hn : n ∈ made) (hv : v ∈ n.values) (hc : v.Holds c) :
    c ∈ made := (hc.everywhere (h.older n hn v hv)).here.1

theorem everywhere (h : History made w) {n : Node} (hn : n ∈ made) :
    n.Everywhere fun c => c ∈ made ∧ c.id < w.nextId := by
  refine Node.everywhere_iff.mpr ⟨⟨hn, h.id_lt hn⟩, fun v hv => ?_⟩
  exact Value.Everywhere.imp (fun c hc => ⟨hc.1, h.id_lt hc.1⟩) v (h.older n hn v hv)

/-- The step: the new node has an identity above all others, and holds nodes of the history. -/
theorem construct (h : History made w) {v : Variant} {values : List Value}
    (given : ∀ x ∈ values, ∀ c, x.Holds c → c ∈ made) :
    History (made ++ [.mk w.nextId v values]) { w with nextId := w.nextId + 1 } where
  ids := by rw [List.map_append, h.ids, List.range_succ]; rfl
  older := by
    intro n hn x hx
    have before : x.Everywhere fun c => c ∈ made ∧ c.id < n.id := by
      rcases List.mem_append.mp hn with hn | hn
      · exact h.older n hn x hx
      · obtain rfl := List.mem_singleton.mp hn
        exact Value.everywhere_of_holds x fun c hc => h.everywhere (given x hx c hc)
    exact Value.Everywhere.imp (fun c hc => ⟨List.mem_append_left _ hc.1, hc.2⟩) x before

end History

/-- The run: constructing goes from histories to histories. -/
theorem Constructs.history (h : Constructs made w made' w') (hw : History made w) : History made' w' := by
  induction h with
  | done => exact hw
  | noted _ _ ih => exact ⟨ih.ids, ih.older⟩
  | construct _ given ih => exact ih.construct given

end Histories

/-! ### Nodes that are known -/

/-- The node is in every history that has the nodes of `K`: it is one of them, or inside one. -/
def Within (K : Set Node) (n : Node) : Prop := ∀ made w, History made w → (∀ k ∈ K, k ∈ made) → n ∈ made

section Within
variable {K L : Set Node} {n c : Node}

theorem within_of_mem (h : n ∈ K) : Within K n := fun _ _ _ hK => hK n h

theorem Within.trans (h : Within L n) (hL : ∀ l ∈ L, Within K l) : Within K n := fun made w hw hK =>
  h made w hw fun l hl => hL l hl made w hw hK

theorem Within.mono (h : Within K n) (hK : K ⊆ L) : Within L n := h.trans fun _ hk => within_of_mem (hK hk)

theorem Within.left (h : Within K n) : Within (K ∪ L) n := h.mono Set.subset_union_left

theorem Within.held {v : Value} (h : Within K n) (hv : v ∈ n.values) (hc : v.Holds c) : Within K c :=
  fun made w hw hK => hw.held (h made w hw hK) hv hc

theorem Within.child (h : Within K n) (hc : c ∈ n.children) : Within K c := by
  obtain ⟨v, hv, hcv⟩ := List.mem_flatMap.mp hc
  exact h.held hv (Value.holds_of_mem_nodes hcv)

/-- Every node that the value holds is known. -/
def Value.Known (K : Set Node) (v : Value) : Prop := ∀ c, v.Holds c → Within K c

namespace Value

@[simp] theorem known_absent : Value.absent.Known K := fun c hc => (not_holds rfl rfl c hc).elim

@[simp] theorem known_node : (Value.node n).Known K ↔ Within K n := by simp [Known]

@[simp] theorem known_nodeList {ns : List Node} : (nodeList ns).Known K ↔ ∀ c ∈ ns, Within K c := by
  simp [Known, nodeList]

@[simp] theorem known_ofOption {o : Option Node} : (ofOption o).Known K ↔ ∀ c ∈ o, Within K c := by
  cases o <;> simp [ofOption]

@[simp] theorem known_ofMember {α : Type} [Enumerated α] (a : α) : (ofMember a).Known K :=
  fun c hc => (not_holds rfl rfl c hc).elim

end Value

theorem Within.known {v : Value} (h : Within K n) (hv : v ∈ n.values) : v.Known K := fun _ hc => h.held hv hc

end Within

/-! ### Actions that construct -/

/-- From every history that has the nodes of `K` the action only constructs, whether it fails or not; if it does not,
    the nodes `G` of its value are in the history in the end. -/
def Adds {α : Type} (K : Set Node) (x : BuildM α) (G : α → Set Node) : Prop :=
  ∀ made w r w', History made w → (∀ k ∈ K, k ∈ made) → built x w = (r, w') →
    ∃ made', Constructs made w made' w' ∧ ∀ a, r = .ok a → ∀ n ∈ G a, n ∈ made'

namespace Adds
variable {α β : Type} {K L : Set Node} {G : α → Set Node} {H : β → Set Node} {x : BuildM α}

/-- An action that leaves the workspace as it is, but for the log. -/
theorem quiet {e : Except Error α} {lines : List LogLine} (hx : ∀ w, built x w = (e, { w with log := w.log ++ lines }))
    (hG : ∀ a, e = .ok a → ∀ n ∈ G a, Within K n) : Adds K x G := by
  intro made w r w' hw hK hrun
  rw [hx w] at hrun
  cases hrun
  exact ⟨made, Constructs.done.noted lines, fun a ha n hn => hG a ha n hn made w hw hK⟩

theorem logs {e : Except Error α} {lines : List LogLine} (hx : ∀ w, built x w = (e, { w with log := w.log ++ lines })) :
    Adds K x fun _ => ∅ := quiet hx fun _ _ _ hn => hn.elim

theorem read {e : Except Error α} (hG : ∀ a, e = .ok a → ∀ n ∈ G a, Within K n) : Adds K (liftM e) G := by
  have hx (w : Workspace) : built (liftM e) w = (e, { w with log := w.log ++ [] }) := by rw [built_liftM, List.append_nil]
  exact quiet hx hG

theorem throw (e : Error) : Adds K (liftM (.error e : Except Error α)) G :=
  read fun a ha => by cases ha

theorem pure {a : α} (hG : ∀ n ∈ G a, Within K n) : Adds K (Pure.pure a) G :=
  read (e := .ok a) fun b hb => by
    cases hb
    exact hG

theorem bind {f : α → BuildM β} (hx : Adds K x G) (hf : ∀ a, Adds (K ∪ G a) (f a) H) : Adds K (x >>= f) H := by
  intro made w r w' hw hK hrun
  rw [built_bind] at hrun
  rcases hfirst : built x w with ⟨_ | a, w₁⟩
  · obtain ⟨made', hgrown, -⟩ := hx made w _ w₁ hw hK hfirst
    rw [hfirst] at hrun
    cases hrun
    exact ⟨made', hgrown, nofun⟩
  · obtain ⟨made', hgrown, hG⟩ := hx made w _ w₁ hw hK hfirst
    rw [hfirst] at hrun
    have hknown : ∀ k ∈ K ∪ G a, k ∈ made' := hgrown.both hK (hG a rfl)
    obtain ⟨made'', hgrown', hH⟩ := hf a made' w₁ r w' (hgrown.history hw) hknown hrun
    exact ⟨made'', hgrown.trans hgrown', hH⟩

theorem mono (hx : Adds L x G) (hL : ∀ l ∈ L, Within K l) {G' : α → Set Node}
    (hG : ∀ a, ∀ n ∈ G' a, Within (K ∪ G a) n) : Adds K x G' := by
  intro made w r w' hw hK hrun
  obtain ⟨made', hgrown, hknown⟩ := hx made w r w' hw (fun l hl => hL l hl made w hw hK) hrun
  refine ⟨made', hgrown, fun a ha n hn => hG a n hn made' w' (hgrown.history hw) ?_⟩
  exact hgrown.both hK (hknown a ha)

theorem readBind {e : Except Error α} {f : α → BuildM β} (hf : ∀ a, e = .ok a → Adds K (f a) H) :
    Adds K (liftM e >>= f) H := by
  cases e with
  | ok a => exact hf a rfl
  | error e => exact throw e

end Adds

/-! ### Operations on nodes -/

section Operations
variable {K : Set Node}

theorem allocate_adds {v : Variant} {values : List Value} (given : ∀ x ∈ values, x.Known K) :
    Adds K (liftM (Node.allocate v values)) fun n => {n} := by
  intro made w r w' hw hK hrun
  cases hrun
  refine ⟨_, Constructs.done.construct (v := v) fun x hx c hc => given x hx c hc made w hw hK, fun a ha n hn => ?_⟩
  cases ha
  obtain rfl := Set.mem_singleton_iff.mp hn
  exact List.mem_append_right _ (List.mem_singleton.mpr rfl)

theorem build_adds {v : Variant} {args : List Argument} (given : ∀ a ∈ args, a.2.Known K) :
    Adds K (v.build args) fun n => {n} := by
  refine Adds.readBind fun values harrange => allocate_adds fun x hx => ?_
  rcases (Variant.arrange_spec harrange).2 x hx with rfl | hx
  · exact Value.known_absent
  · obtain ⟨a, ha, rfl⟩ := List.mem_map.mp hx
    exact given a ha

theorem buildNamed_adds {schema : Schema} {name : String} {args : List Argument} (given : ∀ a ∈ args, a.2.Known K) :
    Adds K (schema.build name args) fun n => {n} :=
  Adds.readBind fun _ _ => build_adds given

theorem update_adds {n : Node} {updates : List Argument} (old : Within K n) (given : ∀ u ∈ updates, u.2.Known K) :
    Adds K (n.update updates) fun n' => {n'} := by
  unfold Node.update
  by_cases hempty : updates.isEmpty = true
  · rw [if_pos hempty]
    exact Adds.pure fun m hm => Set.mem_singleton_iff.mp hm ▸ old
  · rw [if_neg hempty]
    refine Adds.readBind fun values hoverlay => allocate_adds fun x hx => ?_
    rcases (Node.overlayFrom_spec n.id hoverlay).2 x hx with hx | hx
    · exact old.known hx
    · obtain ⟨u, hu, rfl⟩ := List.mem_map.mp hx
      exact given u hu

end Operations

/-! ### Actions of other monads -/

/-- A way to say of the actions of a monad that they only construct: it holds of values at hand, of one action after
    the other and of actions that build. -/
structure Tracking (m : Type → Type) [Monad m] [MonadLiftT BuildM m] where
  Adds : {α : Type} → Set Node → m α → (α → Set Node) → Prop
  pure {α : Type} {K : Set Node} {G : α → Set Node} {a : α} (hG : ∀ n ∈ G a, Within K n) : Adds K (Pure.pure a) G
  bind {α β : Type} {K : Set Node} {G : α → Set Node} {H : β → Set Node} {x : m α} {f : α → m β} (hx : Adds K x G)
    (hf : ∀ a, Adds (K ∪ G a) (f a) H) : Adds K (x >>= f) H
  lift {α : Type} {K : Set Node} {G : α → Set Node} {x : BuildM α} (hx : TypedTree.Adds K x G) : Adds K (liftM x) G
  mono {α : Type} {K L : Set Node} {G G' : α → Set Node} {x : m α} (hx : Adds L x G) (hL : ∀ l ∈ L, Within K l)
    (hG : ∀ a, ∀ n ∈ G' a, Within (K ∪ G a) n) : Adds K x G'

namespace Tracking

def ofBuild : Tracking BuildM where
  Adds := TypedTree.Adds
  pure := TypedTree.Adds.pure
  bind := TypedTree.Adds.bind
  lift hx := hx
  mono hx hL hG := hx.mono hL hG

/-- Actions with a state; `N` are the nodes that a state holds. -/
def ofState {σ : Type} (N : σ → Set Node) : Tracking (StateT σ BuildM) where
  Adds K x G := ∀ s, TypedTree.Adds (K ∪ N s) (x.run s) fun p => G p.1 ∪ N p.2
  pure hG s := by
    refine TypedTree.Adds.pure ?_
    rintro n (hn | hn)
    · exact (hG n hn).mono Set.subset_union_left
    · exact within_of_mem (.inr hn)
  bind hx hf s := by
    rw [StateT.run_bind]
    refine TypedTree.Adds.bind (hx s) fun p => (hf p.1 p.2).mono ?_ fun _ _ hn => within_of_mem (.inr hn)
    rintro n ((hn | hn) | hn)
    · exact within_of_mem (.inl (.inl hn))
    · exact within_of_mem (.inr (.inl hn))
    · exact within_of_mem (.inr (.inr hn))
  lift hx s := by
    refine TypedTree.Adds.bind (hx.mono (fun _ hl => within_of_mem (.inl hl)) fun _ _ hn => within_of_mem (.inr hn))
      fun a => TypedTree.Adds.pure ?_
    rintro n (hn | hn)
    · exact within_of_mem (.inr hn)
    · exact within_of_mem (.inl (.inr hn))
  mono hx hL hG s := by
    refine (hx s).mono ?_ ?_
    · rintro l (hl | hl)
      · exact (hL l hl).mono Set.subset_union_left
      · exact within_of_mem (.inr hl)
    · rintro p n (hn | hn)
      · refine (hG p.1 n hn).mono ?_
        rintro k (hk | hk)
        · exact .inl (.inl hk)
        · exact .inr (.inl hk)
      · exact within_of_mem (.inr (.inr hn))

variable {m : Type → Type} [Monad m] [MonadLiftT BuildM m] (L : Tracking m) {α β : Type} {K : Set Node}
  {G : α → Set Node} {H : β → Set Node}

theorem weaken {K' : Set Node} {x : m α} (hx : L.Adds K' x G) (hK : ∀ k ∈ K', Within K k) : L.Adds K x G :=
  L.mono hx hK fun _ _ hn => within_of_mem (.inr hn)

/-- An action after one whose value holds no nodes. -/
theorem after {x : m α} {f : α → m β} (hx : L.Adds K x fun _ => ∅) (hf : ∀ a, L.Adds K (f a) H) :
    L.Adds K (x >>= f) H :=
  L.bind hx fun a => L.weaken (hf a) fun _ hk => within_of_mem (.inl hk)

theorem value (a : α) : L.Adds K (Pure.pure a) fun _ => ∅ := L.pure fun _ hn => hn.elim

theorem read (e : Except Error α) : L.Adds K (liftM (liftM e : BuildM α)) fun _ => ∅ :=
  L.lift (Adds.read fun _ _ _ hn => hn.elim)

theorem forM {f : α → m PUnit} {xs : List α} (h : ∀ x ∈ xs, L.Adds K (f x) fun _ => ∅) :
    L.Adds K (xs.forM f) fun _ => ∅ := by
  induction xs with
  | nil => exact L.value _
  | cons x xs ih =>
    rw [List.forall_mem_cons] at h
    exact L.after h.1 fun _ => ih h.2

variable [LawfulMonad m]

theorem map {x : m α} {f : α → β} (hx : L.Adds K x G) (hf : ∀ a, ∀ n ∈ H (f a), Within (K ∪ G a) n) :
    L.Adds K (f <$> x) H := by
  rw [map_eq_pure_bind]
  exact L.bind hx fun a => L.pure (hf a)

theorem mapM {f : α → m β} {xs : List α} (h : ∀ x ∈ xs, L.Adds K (f x) H) :
    L.Adds K (xs.mapM f) fun ys => { c | ∃ y ∈ ys, c ∈ H y } := by
  induction xs with
  | nil =>
    rw [List.mapM_nil]
    exact L.pure (by simp)
  | cons x xs ih =>
    rw [List.forall_mem_cons] at h
    rw [List.mapM_cons]
    refine L.bind h.1 fun y => L.bind (L.weaken (ih h.2) fun k hk => within_of_mem (.inl hk)) fun ys => L.pure ?_
    rintro c ⟨z, hz, hc⟩
    rcases List.mem_cons.mp hz with rfl | hz
    · exact within_of_mem (.inl (.inr hc))
    · exact within_of_mem (.inr ⟨z, hz, hc⟩)

theorem mapM_nodes {f : α → m Node} {xs : List α} (h : ∀ x ∈ xs, L.Adds K (f x) fun n => {n}) :
    L.Adds K (xs.mapM f) fun ns => { n | n ∈ ns } :=
  L.mono (L.mapM h) (fun _ => within_of_mem) fun _ n hn => within_of_mem (.inr ⟨n, hn, rfl⟩)

theorem mapM_values {f : α → m β} {xs : List α} (h : ∀ x ∈ xs, L.Adds K (f x) fun _ => ∅) :
    L.Adds K (xs.mapM f) fun _ => ∅ :=
  L.mono (L.mapM h) (fun _ => within_of_mem) fun _ _ hn => hn.elim

/-! ### Transforms of what a node holds -/

theorem mapItems {items : List Value} {f : { c : Node // c ∈ items.filterMap Value.asNode? } → m Node}
    (hitems : ∀ v ∈ items, v.Known K) (hf : ∀ c, L.Adds K (f c) fun c' => {c'}) :
    L.Adds K (Value.mapItems items f) fun ys => { c | ∃ y ∈ ys, Value.Holds c y } := by
  refine L.mapM (H := fun y => { c | Value.Holds c y }) ?_
  rintro ⟨v, hv⟩ -
  cases v with
  | node c =>
    refine L.map (hf _) fun n c hc => ?_
    cases hc
    exact within_of_mem (.inr rfl)
  | _ => exact L.pure (hitems _ hv)

theorem mapNodes {v : Value} {f : { c : Node // c ∈ v.nodes } → m Node} (hv : v.Known K)
    (hf : ∀ c, L.Adds K (f c) fun c' => {c'}) : L.Adds K (v.mapNodes f) fun v' => { c | v'.Holds c } := by
  cases v with
  | node c =>
    refine L.map (hf _) fun n c hc => ?_
    cases hc
    exact within_of_mem (.inr rfl)
  | list items =>
    refine L.map (L.mapItems (fun v hv' c hc => hv c (.list hv' hc)) hf) fun ys c hc => ?_
    cases hc with
    | list hy hc => exact within_of_mem (.inr ⟨_, hy, hc⟩)
  | set items =>
    refine L.map (L.mapItems (fun v hv' c hc => hv c (.set hv' hc)) hf) fun ys c hc => ?_
    cases hc with
    | set hy hc => exact within_of_mem (.inr ⟨_, hy, hc⟩)
  | _ => exact L.pure hv

/-- A node is rebuilt by constructing if the transform of what it holds constructs. -/
theorem mapSmaller {n : Node} {sel : Selector} {f : n.Smaller → m Node} (hn : Within K n)
    (hf : ∀ c : n.Smaller, c.1 ∈ n.children → L.Adds K (f c) fun c' => {c'}) :
    L.Adds K (n.mapSmaller sel f) fun n' => {n'} := by
  unfold Node.mapSmaller
  refine L.bind (L.mapM (H := fun v => { c | Value.Holds c v }) ?_) fun values => ?_
  · rintro ⟨⟨field, v⟩, hp⟩ -
    have hv := Node.mem_values_of_mem_fields hp
    by_cases hsel : sel.selects field = true
    · rw [if_pos hsel]
      refine L.bind (L.mapNodes (hn.known hv) fun c => hf _ ?_) fun v' => L.lift (Adds.read ?_)
      · exact List.mem_flatMap.mpr ⟨v, hv, c.2⟩
      · rintro v'' hchecked c hc
        obtain ⟨rfl, -⟩ := Field.checked_eq_ok hchecked
        exact within_of_mem (.inr hc)
    · rw [if_neg hsel]
      exact L.pure (hn.known hv)
  · exact L.lift (allocate_adds fun x hx c hc => within_of_mem (.inr ⟨x, hx, hc⟩))

/-- What the rule puts in the place of a node is constructed, from the node and the nodes of `K`. -/
def Obeys (K : Set Node) (n : Node) : RewriteRule m → Prop
  | .replace f => L.Adds (K ∪ {n}) (f n) fun n' => {n'}
  | .rebuild _ finish => ∀ rebuilt : Node, L.Adds (K ∪ {rebuilt}) (finish rebuilt) fun n' => {n'}

/-- So is a whole tree that is rewritten by such rules. -/
theorem rewriteWith {rule : Node → RewriteRule m} (hrule : ∀ n, L.Obeys K n (rule n)) (n : Node) :
    L.Adds (K ∪ {n}) (n.rewriteWith rule) fun n' => {n'} := by
  have hn := hrule n
  have root : Within (K ∪ {n}) n := within_of_mem (.inr rfl)
  rw [Node.rewriteWith]
  cases hr : rule n with
  | replace f =>
    rw [hr] at hn
    exact hn
  | rebuild sel finish =>
    rw [hr] at hn
    refine L.bind (L.mapSmaller root fun c hc => L.weaken (rewriteWith hrule c.1) ?_) fun rebuilt =>
      L.weaken (hn rebuilt) ?_
    · rintro k (hk | rfl)
      · exact within_of_mem (.inl hk)
      · exact root.child hc
    · rintro k (hk | hk)
      · exact within_of_mem (.inl (.inl hk))
      · exact within_of_mem (.inr hk)
termination_by sizeOf n
decreasing_by exact c.2

/-! ### Actions with a state -/

section State
variable {σ : Type} {N : σ → Set Node}

theorem throw {e : Error} : (ofState N).Adds K (MonadExcept.throw e : StateT σ BuildM α) G :=
  fun _ => Adds.throw e

theorem readBind {e : Except Error α} {f : α → StateT σ BuildM β}
    (hf : ∀ a, e = .ok a → (ofState N).Adds K (f a) H) : (ofState N).Adds K (liftM e >>= f) H := by
  cases e with
  | ok a => exact hf a rfl
  | error e => exact throw

theorem throwBind {e : Error} {f : α → StateT σ BuildM β} :
    (ofState N).Adds K ((MonadExcept.throw e : StateT σ BuildM α) >>= f) H := fun _ => Adds.throw e

theorem get : (ofState N).Adds K (MonadState.get : StateT σ BuildM σ) N :=
  fun _ => Adds.pure fun _ hn => within_of_mem (.inr (hn.elim id id))

theorem change {f : σ → σ} (hf : ∀ s, ∀ n ∈ N (f s), Within (K ∪ N s) n) :
    (ofState N).Adds K (modify f : StateT σ BuildM PUnit) fun _ => ∅ :=
  fun s => Adds.pure fun n hn => hf s n (hn.resolve_left id)

theorem run {x : StateT σ BuildM α} (hx : (ofState N).Adds K x G) {s : σ} (hs : ∀ n ∈ N s, Within K n) :
    TypedTree.Adds K (x.run s) fun p => G p.1 ∪ N p.2 := by
  refine (hx s).mono ?_ fun _ _ hn => within_of_mem (.inr hn)
  rintro n (hn | hn)
  · exact within_of_mem hn
  · exact hs n hn

end State

end Tracking

theorem copy_adds {K : Set Node} {n : Node} (hn : Within K n) : Adds K n.copy fun n' => {n'} := by
  have same : ∀ n, Tracking.ofBuild.Obeys ∅ n (.rebuild .children pure) := fun _ _ =>
    Adds.pure fun _ hm => within_of_mem (.inr hm)
  refine Tracking.ofBuild.weaken (Tracking.ofBuild.rewriteWith same n) ?_
  rintro k (hk | rfl)
  · exact hk.elim
  · exact hn

end TypedTree
