import TypedTree.Workspace

/-! Runs of actions that build. An action ends with a value or an error, and in both cases with a workspace; an
    action with a state of its own ends with a new state as well, unless it fails; one that works in place leaves a
    state in any case. A run of two actions is a run of the first one and, if that succeeds, of the second one from
    where the first one ended. -/

namespace TypedTree
variable {σ α β : Type}

@[simp] theorem ok_bind (a : α) (f : α → Except Error β) : (Except.ok a >>= f) = f a := rfl

theorem bind_eq_ok {x : Except Error α} {f : α → Except Error β} {b : β} :
    (x >>= f) = .ok b ↔ ∃ a, x = .ok a ∧ f a = .ok b := by
  cases x with
  | error e => simp [bind, Except.bind]
  | ok a => simp

/-- How an action ends that starts in the workspace `w`. -/
def built (x : BuildM α) (w : Workspace) : Except Error α × Workspace := x.run.run w

/-- How an action with a state ends that starts in the state `s` and the workspace `w`. -/
def outcome (x : StateT σ BuildM α) (s : σ) (w : Workspace) : Except Error (α × σ) × Workspace := built (x.run s) w

@[simp] theorem liftM_ok (a : α) : (liftM (Except.ok a : Except Error α) : BuildM α) = pure a := rfl

@[simp] theorem liftM_state_ok (a : α) : (liftM (Except.ok a : Except Error α) : StateT σ BuildM α) = pure a := rfl

/-! ### Without a state -/

theorem built_liftM (x : Except Error α) (w : Workspace) : built (liftM x) w = (x, w) := by
  cases x <;> rfl

theorem built_bind (x : BuildM α) (f : α → BuildM β) (w : Workspace) :
    built (x >>= f) w = match built x w with
      | (.ok a, w') => built (f a) w'
      | (.error e, w') => (.error e, w') := by
  simp only [built, ExceptT.run_bind, StateT.run_bind]
  rcases x.run.run w with ⟨_ | _, _⟩ <;> rfl

theorem built_bind_eq_ok {x : BuildM α} {f : α → BuildM β} {w w' : Workspace} {b : β} :
    built (x >>= f) w = (.ok b, w') ↔ ∃ a w₁, built x w = (.ok a, w₁) ∧ built (f a) w₁ = (.ok b, w') := by
  rw [built_bind]
  rcases built x w with ⟨_ | a, w₁⟩
  · simp
  · refine ⟨fun h => ⟨a, w₁, rfl, h⟩, ?_⟩
    rintro ⟨_, _, ⟨⟩, h⟩
    exact h

/-- A first step that does not touch the workspace. -/
theorem built_liftM_bind_eq_ok {x : Except Error α} {f : α → BuildM β} {w w' : Workspace} {b : β} :
    built (liftM x >>= f) w = (.ok b, w') ↔ ∃ a, x = .ok a ∧ built (f a) w = (.ok b, w') := by
  rw [built_bind, built_liftM]
  cases x <;> simp

/-! ### With a state -/

@[simp] theorem outcome_get (s : σ) (w : Workspace) : outcome (get : StateT σ BuildM σ) s w = (.ok (s, s), w) := rfl

theorem outcome_bind (x : StateT σ BuildM α) (f : α → StateT σ BuildM β) (s : σ) (w : Workspace) :
    outcome (x >>= f) s w = match outcome x s w with
      | (.ok (a, s'), w') => outcome (f a) s' w'
      | (.error e, w') => (.error e, w') := by
  simp only [outcome, StateT.run_bind, built_bind]
  rcases built (x.run s) w with ⟨_ | _, _⟩ <;> rfl

theorem outcome_bind_eq_ok {x : StateT σ BuildM α} {f : α → StateT σ BuildM β} {s s' : σ} {w w' : Workspace} {b : β} :
    outcome (x >>= f) s w = (.ok (b, s'), w') ↔
      ∃ a t v, outcome x s w = (.ok (a, t), v) ∧ outcome (f a) t v = (.ok (b, s'), w') := by
  rw [outcome_bind]
  rcases outcome x s w with ⟨_ | ⟨a, t⟩, v⟩
  · simp
  · refine ⟨fun h => ⟨a, t, v, rfl, h⟩, ?_⟩
    rintro ⟨_, _, _, ⟨⟩, h⟩
    exact h

theorem outcome_lift (x : BuildM α) (s : σ) (w : Workspace) :
    outcome (liftM x : StateT σ BuildM α) s w = match built x w with
      | (.ok a, w') => (.ok (a, s), w')
      | (.error e, w') => (.error e, w') := by
  show built (x >>= fun a => pure (a, s)) w = _
  rw [built_bind]
  rcases built x w with ⟨_ | _, _⟩ <;> rfl

/-! ### In place -/

section InPlace
variable {ε : Type}

/-- How an action in place ends that starts on `s` in the workspace `w`. -/
def edited (x : EditM ε σ α) (s : σ) (w : Workspace) : (Except ε α × σ) × Workspace := (x.run.run s).run w

theorem edited_bind (x : EditM ε σ α) (f : α → EditM ε σ β) (s : σ) (w : Workspace) :
    edited (x >>= f) s w = match edited x s w with
      | ((.ok a, s'), w') => edited (f a) s' w'
      | ((.error e, s'), w') => ((.error e, s'), w') := by
  simp only [edited, ExceptT.run_bind, StateT.run_bind]
  rcases (x.run.run s).run w with ⟨⟨_ | _, _⟩, _⟩ <;> rfl

@[simp] theorem edited_pure (a : α) (s : σ) (w : Workspace) : edited (pure a : EditM ε σ α) s w = ((.ok a, s), w) := rfl

@[simp] theorem edited_throw (e : ε) (s : σ) (w : Workspace) :
    edited (throw e : EditM ε σ α) s w = ((.error e, s), w) := rfl

@[simp] theorem edited_get (s : σ) (w : Workspace) : edited (get : EditM ε σ σ) s w = ((.ok s, s), w) := rfl

@[simp] theorem edited_modify (f : σ → σ) (s : σ) (w : Workspace) :
    edited (modify f : EditM ε σ Unit) s w = ((.ok (), f s), w) := rfl

@[simp] theorem edited_liftM (c : Except Error α) (s : σ) (w : Workspace) :
    edited (liftM c : EditM Error σ α) s w = ((c, s), w) := by
  cases c <;> rfl

theorem edited_tryCatch (x : EditM ε σ α) (f : ε → EditM ε σ α) (s : σ) (w : Workspace) :
    edited (tryCatch x f) s w = match edited x s w with
      | ((.ok a, s'), w') => ((.ok a, s'), w')
      | ((.error e, s'), w') => edited (f e) s' w' := by
  show ((ExceptT.tryCatch x f).run.run s).run w = _
  simp only [ExceptT.tryCatch, ExceptT.run_mk, StateT.run_bind]
  show (edited x s w >>= fun _ => _ : Id _) = _
  rcases edited x s w with ⟨⟨_ | _, _⟩, _⟩ <;> rfl

/-- An action in place on the same state, with its failure as a value. -/
@[simp] theorem edited_observing (x : EditM ε σ α) (s : σ) (w : Workspace) :
    edited (observing x) s w = ((.ok (edited x s w).1.1, (edited x s w).1.2), (edited x s w).2) := by
  rw [observing, edited_tryCatch, edited_bind]
  rcases edited x s w with ⟨⟨_ | _, _⟩, _⟩ <;> rfl

/-- An action in place on another state, with its outcome as a value. -/
@[simp] theorem edited_liftM_run_run {ε' τ : Type} (x : EditM ε' τ α) (t : τ) (s : σ) (w : Workspace) :
    edited (liftM (x.run.run t) : EditM ε σ (Except ε' α × τ)) s w = ((.ok (edited x t w).1, s), (edited x t w).2) := rfl

/-- An action that builds, with its outcome as a value. -/
@[simp] theorem edited_liftM_run (x : BuildM α) (s : σ) (w : Workspace) :
    edited (liftM x.run : EditM ε σ (Except Error α)) s w = ((.ok (built x w).1, s), (built x w).2) := rfl

end InPlace

/-! ### Identities -/

/-- The action takes no identities but from the supply: if it starts where all below `b` are given out and does not
    fail, it ends there, with a value that has the property. -/
def Takes (b : NodeId) (x : StateT σ BuildM α) (Q : α → Prop) : Prop :=
  ∀ s w a s' w', b ≤ w.nextId → outcome x s w = (.ok (a, s'), w') → b ≤ w'.nextId ∧ Q a

namespace Takes
variable {b : NodeId} {P : α → Prop} {Q : β → Prop}

theorem pure {a : α} (h : P a) : Takes b (Pure.pure a : StateT σ BuildM α) P := by
  intro s w a' s' w' hb hrun
  cases hrun
  exact ⟨hb, h⟩

theorem bind {x : StateT σ BuildM α} {f : α → StateT σ BuildM β} (hx : Takes b x P) (hf : ∀ a, P a → Takes b (f a) Q) :
    Takes b (x >>= f) Q := by
  intro s w c s' w' hb hrun
  obtain ⟨a, t, v, hfirst, hrest⟩ := outcome_bind_eq_ok.mp hrun
  obtain ⟨hv, ha⟩ := hx s w a t v hb hfirst
  exact hf a ha t v c s' w' hv hrest

theorem imp {P' : α → Prop} {x : StateT σ BuildM α} (hx : Takes b x P) (h : ∀ a, P a → P' a) : Takes b x P' := by
  intro s w a s' w' hb hrun
  obtain ⟨hb', ha⟩ := hx s w a s' w' hb hrun
  exact ⟨hb', h a ha⟩

theorem map {x : StateT σ BuildM α} {f : α → β} (hx : Takes b x P) (h : ∀ a, P a → Q (f a)) : Takes b (f <$> x) Q := by
  rw [map_eq_pure_bind]
  exact hx.bind fun a ha => pure (h a ha)

theorem lift {x : BuildM α} (h : ∀ w a w', b ≤ w.nextId → built x w = (.ok a, w') → b ≤ w'.nextId ∧ P a) :
    Takes b (liftM x : StateT σ BuildM α) P := by
  intro s w a s' w' hb hrun
  rw [outcome_lift] at hrun
  rcases hx : built x w with ⟨_ | c, v⟩ <;> rw [hx] at hrun <;> cases hrun
  exact h w a _ hb hx

theorem throw (e : Error) : Takes b (MonadExcept.throw e : StateT σ BuildM α) P := by
  intro s w a s' w' _ hrun
  cases hrun

theorem read {x : Except Error α} (h : ∀ a, x = .ok a → P a) : Takes b (liftM x : StateT σ BuildM α) P := by
  cases x with
  | ok a => exact pure (h a rfl)
  | error e => exact throw e

theorem mapM {f : α → StateT σ BuildM β} {xs : List α} (h : ∀ x ∈ xs, Takes b (f x) Q) :
    Takes b (xs.mapM f) fun ys => ∀ y ∈ ys, Q y := by
  induction xs with
  | nil => exact pure (by simp)
  | cons x xs ih =>
    rw [List.forall_mem_cons] at h
    rw [List.mapM_cons]
    exact h.1.bind fun y hy => (ih h.2).bind fun ys hys => pure (List.forall_mem_cons.mpr ⟨hy, hys⟩)

end Takes

end TypedTree
