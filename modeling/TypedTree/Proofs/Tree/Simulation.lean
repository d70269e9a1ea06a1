import TypedTree.Tree.Rewrite

/-! One transform in two monads. Where the actions of a monad are related to those of another one, step by step, a node
    is rebuilt in one as it is in the other, if what replaces the nodes that it holds is related. -/

namespace TypedTree

/-- A way to say that an action of the monad `m'` does what an action of `m` does: it holds of values at hand, of one
    action after the other and of actions that build. -/
structure Simulation (m m' : Type → Type) [Monad m] [Monad m'] [MonadLiftT BuildM m] [MonadLiftT BuildM m'] where
  Same : {α : Type} → m α → m' α → Prop
  pure {α : Type} (a : α) : Same (Pure.pure a) (Pure.pure a)
  bind {α β : Type} {x : m α} {y : m' α} {f : α → m β} {g : α → m' β} (hx : Same x y) (hf : ∀ a, Same (f a) (g a)) :
    Same (x >>= f) (y >>= g)
  lift {α : Type} (x : BuildM α) : Same (liftM x) (liftM x)

namespace Simulation
variable {m m' : Type → Type} [Monad m] [Monad m'] [MonadLiftT BuildM m] [MonadLiftT BuildM m'] [LawfulMonad m]
  [LawfulMonad m'] (S : Simulation m m') {α β : Type}

theorem map {x : m α} {y : m' α} (f : α → β) (h : S.Same x y) : S.Same (f <$> x) (f <$> y) := by
  rw [map_eq_pure_bind, map_eq_pure_bind]
  exact S.bind h fun a => S.pure (f a)

theorem mapM {f : α → m β} {g : α → m' β} {xs : List α} (h : ∀ x ∈ xs, S.Same (f x) (g x)) :
    S.Same (xs.mapM f) (xs.mapM g) := by
  induction xs with
  | nil =>
    rw [List.mapM_nil, List.mapM_nil]
    exact S.pure []
  | cons x xs ih =>
    rw [List.forall_mem_cons] at h
    rw [List.mapM_cons, List.mapM_cons]
    exact S.bind h.1 fun y => S.bind (ih h.2) fun ys => S.pure (y :: ys)

/-! ### Transforms of what a node holds -/

theorem mapItems {items : List Value} {f : { c : Node // c ∈ items.filterMap Value.asNode? } → m Node}
    {g : { c : Node // c ∈ items.filterMap Value.asNode? } → m' Node} (h : ∀ c, S.Same (f c) (g c)) :
    S.Same (Value.mapItems items f) (Value.mapItems items g) := by
  refine S.mapM ?_
  rintro ⟨v, hv⟩ -
  cases v with
  | node c => exact S.map Value.node (h _)
  | _ => exact S.pure _

theorem mapNodes {v : Value} {f : { c : Node // c ∈ v.nodes } → m Node} {g : { c : Node // c ∈ v.nodes } → m' Node}
    (h : ∀ c, S.Same (f c) (g c)) : S.Same (v.mapNodes f) (v.mapNodes g) := by
  cases v with
  | node c => exact S.map Value.node (h _)
  | list items => exact S.map Value.list (S.mapItems h)
  | set items => exact S.map Value.set (S.mapItems h)
  | _ => exact S.pure _

theorem mapSmaller {n : Node} (sel : Selector) {f : n.Smaller → m Node} {g : n.Smaller → m' Node}
    (h : ∀ c, S.Same (f c) (g c)) : S.Same (n.mapSmaller sel f) (n.mapSmaller sel g) := by
  refine S.bind (S.mapM ?_) fun values => S.lift _
  rintro ⟨⟨field, v⟩, hp⟩ -
  by_cases hsel : sel.selects field = true
  · rw [if_pos hsel, if_pos hsel]
    exact S.bind (S.mapNodes fun c => h _) fun value => S.lift _
  · rw [if_neg hsel, if_neg hsel]
    exact S.pure v

end Simulation

/-- With a state at hand, an action that builds leaves it as it is. -/
def Simulation.lifting (σ : Type) : Simulation BuildM (StateT σ BuildM) where
  Same x y := y = liftM x
  pure _ := rfl
  bind {_ _ x _ f _} hx hf := by
    obtain rfl := hx
    obtain rfl := funext hf
    exact (liftM_bind x f).symm
  lift _ := rfl

/-- A transform that only builds rebuilds a node as it does with a state at hand. -/
theorem Node.liftM_mapSmaller {σ : Type} (n : Node) (sel : Selector) (f : n.Smaller → BuildM Node) :
    (liftM (n.mapSmaller sel f) : StateT σ BuildM Node) = n.mapSmaller sel fun c => liftM (f c) :=
  ((Simulation.lifting σ).mapSmaller sel fun _ => rfl).symm

end TypedTree
