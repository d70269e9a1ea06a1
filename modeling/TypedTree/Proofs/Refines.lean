import TypedTree.Proofs.Run

/-! Building actions that do what a pure computation says. From every state and workspace they fail with the error of
    the computation, or succeed with its new state and a value related to its own. Identities and the log are not
    looked at. A step of the action alone, one that cannot fail and leaves the state, may be taken in between. -/

namespace TypedTree
variable {σ α β γ δ : Type}

/-- Both fail with one error, or both succeed with related values. -/
def Agrees (rel : α → β → Prop) : Except Error α → Except Error β → Prop
  | .ok a, .ok b => rel a b
  | .error e, .error e' => e = e'
  | _, _ => False

namespace Agrees
variable {rel : α → β → Prop} {r : Except Error α}

theorem ok_inv {b : β} (h : Agrees rel r (.ok b)) : ∃ a, r = .ok a ∧ rel a b := by
  cases r with
  | error e => exact h.elim
  | ok a => exact ⟨a, rfl, h⟩

theorem error_inv {e : Error} (h : Agrees rel r (.error e)) : r = .error e := by
  cases r with
  | error e' => exact congrArg Except.error h
  | ok a => exact h.elim

theorem ok_left_inv {a : α} {r : Except Error β} (h : Agrees rel (.ok a) r) : ∃ b, r = .ok b ∧ rel a b := by
  cases r with
  | error e => exact h.elim
  | ok b => exact ⟨b, rfl, h⟩

theorem mono {rel₂ : α → β → Prop} {r : Except Error β} {x : Except Error α} (h : Agrees rel x r)
    (hrel : ∀ a b, rel a b → rel₂ a b) : Agrees rel₂ x r := by
  cases r with
  | error e => rw [h.error_inv]; rfl
  | ok b =>
    obtain ⟨a, rfl, hr⟩ := h.ok_inv
    exact hrel a b hr

/-- What agrees with the image of a computation agrees with the computation. -/
theorem of_map {g : γ → β} {x : Except Error α} {y : Except Error γ} (h : Agrees rel x (g <$> y)) :
    Agrees (fun a c => rel a (g c)) x y := by
  cases x <;> cases y <;> exact h

/-- Two that agree with one computation agree with each other, by what it gives. -/
theorem both {rel₂ : β → γ → Prop} {rel : α → γ → Prop} {x : Except Error α} {y : Except Error β} {r : Except Error γ}
    (hx : Agrees rel x r) (hy : Agrees rel₂ y r) : Agrees (fun a b => ∃ c, rel a c ∧ rel₂ b c) x y := by
  cases r with
  | error e => rw [hx.error_inv, hy.error_inv]; rfl
  | ok c =>
    obtain ⟨a, rfl, ha⟩ := hx.ok_inv
    obtain ⟨b, rfl, hb⟩ := hy.ok_inv
    exact ⟨c, ha, hb⟩

end Agrees

/-- The action without a state does what the pure computation says. -/
def Builds (rel : α → β → Prop) (x : BuildM α) (y : Except Error β) : Prop := ∀ w, Agrees rel (built x w).1 y

/-- The action does what the pure computation says. -/
def Refines (rel : α → β → Prop) (x : StateT σ BuildM α) (y : StateT σ (Except Error) β) : Prop :=
  ∀ s w, Agrees (fun p q => rel p.1 q.1 ∧ p.2 = q.2) (outcome x s w).1 (y.run s)

/-! ### Without a state -/

namespace Builds
variable {rel : α → β → Prop} {rel' : γ → δ → Prop}

theorem pure {a : α} {b : β} (h : rel a b) : Builds rel (Pure.pure a) (Pure.pure b) := fun _ => h

theorem throw {e : Error} : Builds rel (MonadExcept.throw e) (MonadExcept.throw e) := fun _ => rfl

theorem bind {x : BuildM α} {y : Except Error β} {f : α → BuildM γ} {g : β → Except Error δ} (hx : Builds rel x y)
    (hf : ∀ a b, rel a b → Builds rel' (f a) (g b)) : Builds rel' (x >>= f) (y >>= g) := by
  intro w
  have h := hx w
  rw [built_bind]
  generalize built x w = r at h ⊢
  match r, y, h with
  | (.ok a, w'), .ok b, h => exact hf a b h w'
  | (.error _, _), .error _, h => exact h

theorem same (x : Except Error α) : Builds Eq (liftM x) x := by
  intro w
  cases x <;> rfl

/-- A first step that is the same computation on both sides. -/
theorem bind_same {x : Except Error α} {f : α → BuildM γ} {g : α → Except Error δ}
    (hf : ∀ a, x = .ok a → Builds rel' (f a) (g a)) : Builds rel' (liftM x >>= f) (x >>= g) := by
  cases x with
  | error e => exact fun _ => rfl
  | ok a => exact hf a rfl

/-- A last step of the action alone that cannot fail. -/
theorem last {x : BuildM α} {b : β} (hx : ∀ w, ∃ a w', built x w = (.ok a, w') ∧ rel a b) :
    Builds rel x (Pure.pure b) := by
  intro w
  obtain ⟨a, w', h, hr⟩ := hx w
  rw [h]
  exact hr

end Builds

/-! ### With a state -/

namespace Refines
variable {rel : α → β → Prop} {rel' : γ → δ → Prop}

theorem pure {a : α} {b : β} (h : rel a b) :
    Refines rel (Pure.pure a : StateT σ BuildM α) (Pure.pure b) := fun _ _ => ⟨h, rfl⟩

theorem throw {e : Error} :
    Refines rel (MonadExcept.throw e : StateT σ BuildM α) (MonadExcept.throw e) := fun _ _ => rfl

theorem bind {x : StateT σ BuildM α} {y : StateT σ (Except Error) β} {f : α → StateT σ BuildM γ}
    {g : β → StateT σ (Except Error) δ} (hx : Refines rel x y) (hf : ∀ a b, rel a b → Refines rel' (f a) (g b)) :
    Refines rel' (x >>= f) (y >>= g) := by
  intro s w
  have h := hx s w
  rw [outcome_bind, StateT.run_bind]
  generalize outcome x s w = r at h ⊢
  generalize y.run s = q at h ⊢
  match r, q, h with
  | (.ok (a, _), w'), .ok (b, _), ⟨hr, rfl⟩ => exact hf a b hr _ w'
  | (.error _, _), .error _, h => exact h

theorem lift {x : BuildM α} {y : Except Error β} (h : Builds rel x y) : Refines (σ := σ) rel (liftM x) (liftM y) := by
  intro s w
  have h := h w
  rw [outcome_lift]
  generalize built x w = r at h ⊢
  match r, y, h with
  | (.ok _, _), .ok _, h => exact ⟨h, rfl⟩
  | (.error _, _), .error _, h => exact h

theorem bind_same {x : Except Error α} {f : α → StateT σ BuildM γ} {g : α → StateT σ (Except Error) δ}
    (hf : ∀ a, x = .ok a → Refines rel' (f a) (g a)) : Refines rel' (liftM x >>= f) (liftM x >>= g) := by
  cases x with
  | error e => exact fun _ _ => rfl
  | ok a => exact hf a rfl

/-- A step of the action alone that cannot fail. -/
theorem bind_left {x : BuildM α} {P : α → Prop} {f : α → StateT σ BuildM γ} {y : StateT σ (Except Error) δ}
    (hx : ∀ w, ∃ a w', built x w = (.ok a, w') ∧ P a) (hf : ∀ a, P a → Refines rel' (f a) y) :
    Refines rel' (liftM x >>= f) y := by
  intro s w
  obtain ⟨a, w', h, hp⟩ := hx w
  rw [outcome_bind, outcome_lift, h]
  exact hf a hp s w'

theorem last {x : BuildM α} {b : β} (hx : ∀ w, ∃ a w', built x w = (.ok a, w') ∧ rel a b) :
    Refines (σ := σ) rel (liftM x) (Pure.pure b) := lift (Builds.last hx)

theorem mono {rel₂ : α → β → Prop} {x : StateT σ BuildM α} {y : StateT σ (Except Error) β} (h : Refines rel x y)
    (hrel : ∀ a b, rel a b → rel₂ a b) : Refines rel₂ x y :=
  fun s w => (h s w).mono fun _ _ hp => ⟨hrel _ _ hp.1, hp.2⟩

end Refines
end TypedTree
