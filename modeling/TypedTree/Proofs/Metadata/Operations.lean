import TypedTree.Metadata.InPlace
import TypedTree.Proofs.Metadata.Tables
import TypedTree.Proofs.Run

/-! What operations do to a repository. Done in place, step after step, an operation ends as the function says that
    gives the repository after it, and if it fails the repository is as it was, since its checks come before its
    changes. An operation that succeeds does one thing to the table of a name: `Effect` says which, and what every
    effect keeps of a table is kept by a run of operations. -/

namespace TypedTree.Metadata

/-! ### Actions in place -/

/-- The state that a function gives, or else its error and the state as it was. -/
def settled {σ : Type} (s : σ) : Except Error σ → Except Error Unit × σ
  | .ok s' => (.ok (), s')
  | .error e => (.error e, s)

/-- From `s` the action does in one go what the function gives. -/
def Settles {σ : Type} (x : EditM Error σ Unit) (s : σ) (y : Except Error σ) : Prop := ∀ w, edited x s w = (settled s y, w)

namespace Settles
variable {σ α : Type} {s : σ} {y : Except Error σ}

theorem get {f : σ → EditM Error σ Unit} (h : Settles (f s) s y) : Settles (MonadState.get >>= f) s y := fun w => by
  rw [edited_bind, edited_get]
  exact h w

/-- A check before any change. -/
theorem check {c : Except Error α} {f : α → EditM Error σ Unit} {g : α → Except Error σ}
    (h : ∀ a, c = .ok a → Settles (f a) s (g a)) : Settles (liftM c >>= f) s (c >>= g) := fun w => by
  rw [edited_bind, edited_liftM]
  cases c with
  | error e => rfl
  | ok a => exact h a rfl w

theorem change (f : σ → σ) : Settles (modify f) s (.ok (f s)) := fun _ => rfl

end Settles

/-! ### Tables -/

theorem store_settles (n : Node) (v : Value) (t : Table) : Settles (InPlace.store n v) t (t.set n v) :=
  .get (.check fun _ _ => .check fun _ _ => .check fun _ _ => .change _)

theorem Table.add_eq (t : Table) (n : Node) (v : Value) : t.add n v = (do
    t.checkOwner n
    t.checkValue (← InPlace.itemType t) v
    t.checkWritable
    pure { t with entries := t.entries.insert n.id (appended v (t.entries.get? n.id)) }) := by
  rw [add, InPlace.itemType]
  cases t.type.listItem? <;> rfl

theorem pushed_getD (v : Value) (entry : Option Value) :
    InPlace.pushed v (entry.getD (.list [])) = Table.appended v entry := by
  rcases entry with _ | entry
  · rfl
  · cases entry <;> rfl

theorem push_settles (n : Node) (v : Value) (t : Table) : Settles (InPlace.push n v) t (t.add n v) := by
  rw [Table.add_eq]
  refine .get (.check fun _ _ => .check fun _ _ => .check fun _ _ => .check fun _ _ w => ?_)
  rw [← pushed_getD, ← OrderedMap.modify_insertNew]
  rfl

theorem edited_lock (t : Table) (w : Workspace) :
    edited InPlace.lock t w = ((.ok (), t.lock), { w with log := w.log ++ [t.lockNotice] }) := rfl

/-! ### Repositories -/

namespace Repository
variable {r r' : Repository} {name : String} {t t' : Table}

theorem table_eq_ok_iff : r.table name = .ok t ↔ r.tables.get? name = some t := by
  unfold table
  cases r.tables.get? name <;> simp [pure, Except.pure, throw, throwThe, MonadExceptOf.throw]

theorem register_settles (t : Table) (r : Repository) : Settles (InPlace.register t) r (r.register t) := by
  have hchecked : r.register t = (do InPlace.checkNew r t.name; pure ⟨r.tables.insertNew t.name t⟩) := by
    rw [register, InPlace.checkNew]
    split <;> rfl
  rw [hchecked]
  exact .get (.check fun _ _ => .change _)

/-- What is left of the table is put back, whatever the outcome is. -/
theorem edited_within {work : EditM Error Table Unit} {outcome : Except Error Unit} {w w' : Workspace}
    (ht : r.tables.get? name = some t) (h : edited work t w = ((outcome, t'), w')) :
    edited (InPlace.within name work) r w = ((outcome, ⟨r.tables.modify name fun _ => t'⟩), w') := by
  rw [InPlace.within]
  simp only [edited_bind, edited_get, edited_liftM, edited_liftM_run_run, edited_modify, table_eq_ok_iff.mpr ht, h]

theorem edited_within_undefined (work : EditM Error Table Unit) (w : Workspace) (ht : r.tables.get? name = none) :
    edited (InPlace.within name work) r w = ((.error (.metadata (.undefined name)), r), w) := by
  rw [InPlace.within]
  simp only [edited_bind, edited_get, edited_liftM, table, ht]
  rfl

theorem within_settles {work : EditM Error Table Unit} {f : Table → Except Error Table} (hwork : ∀ t, Settles work t (f t))
    (name : String) (r : Repository) : Settles (InPlace.within name work) r (r.update name f) := by
  intro w
  rw [update, table]
  cases ht : r.tables.get? name with
  | none => exact edited_within_undefined work w ht
  | some t =>
    have h := hwork t w
    show _ = (settled r (f t >>= _), w)
    cases hf : f t with
    | ok t' =>
      rw [hf] at h
      exact edited_within ht h
    | error e =>
      rw [hf] at h
      rw [edited_within ht h, OrderedMap.modify_self ht]
      rfl

theorem update_inv {f : Table → Except Error Table} (h : r.update name f = .ok r') :
    ∃ t t', r.tables.get? name = some t ∧ f t = .ok t' ∧ r' = ⟨r.tables.modify name fun _ => t'⟩ := by
  obtain ⟨t, ht, h⟩ := bind_eq_ok.mp h
  obtain ⟨t', hf, h⟩ := bind_eq_ok.mp h
  cases h
  exact ⟨t, t', table_eq_ok_iff.mp ht, hf, rfl⟩

end Repository

/-! ### Operations -/

namespace Operation

/-- In place an operation ends as the function says, with the new repository or with the one that was there. -/
theorem edited_inPlace (op : Operation) (r : Repository) (w : Workspace) :
    edited op.inPlace r w = (settled r (built (op.perform r) w).1, (built (op.perform r) w).2) := by
  cases op with
  | register t =>
    rw [perform, built_liftM]
    exact Repository.register_settles t r w
  | set name n v =>
    rw [perform, built_liftM]
    exact Repository.within_settles (store_settles n v) name r w
  | add name n v =>
    rw [perform, built_liftM]
    exact Repository.within_settles (push_settles n v) name r w
  | lock name =>
    rw [perform, Repository.lock, Repository.table]
    cases ht : r.tables.get? name with
    | none => exact Repository.edited_within_undefined InPlace.lock w ht
    | some t => exact Repository.edited_within ht (edited_lock t w)
  | lockAll => rfl
  | read name n =>
    rw [perform, inPlace, built_bind, built_liftM]
    simp only [edited_bind, edited_get, edited_liftM]
    cases r.get name n <;> rfl

end Operation

/-- What a write does to the entry of its node. -/
inductive Change where
  | set (v : Value)
  | add (v : Value)

/-- A change of the entry that belongs to an identity. -/
structure Write where
  id : NodeId
  change : Change

namespace Operation

/-- What the operation is to write into the table of that name. -/
def write? (name : String) : Operation → Option Write
  | .set target n v => if target = name then some ⟨n.id, .set v⟩ else none
  | .add target n v => if target = name then some ⟨n.id, .add v⟩ else none
  | _ => none

/-- The operation is on the table of that name. -/
def Concerns (name : String) : Operation → Prop
  | .register t => t.name = name
  | .set target .. | .add target .. | .lock target => target = name
  | .lockAll => True
  | .read .. => False

theorem write?_eq_none {name : String} {op : Operation} (h : ¬op.Concerns name) : op.write? name = none := by
  cases op with
  | set | add => exact if_neg h
  | _ => rfl

end Operation

/-- What an operation that succeeds does to the table of a name. -/
inductive Effect (name : String) : Operation → Option Table → Option Table → Prop
  | registered {t : Table} (h : t.name = name) : Effect name (.register t) none (some t)
  | set {t t' : Table} {n : Node} {v : Value} (h : t.set n v = .ok t') : Effect name (.set name n v) (some t) (some t')
  | added {t t' : Table} {n : Node} {v : Value} (h : t.add n v = .ok t') : Effect name (.add name n v) (some t) (some t')
  | locked (t : Table) : Effect name (.lock name) (some t) (some t.lock)
  | allLocked (entry : Option Table) : Effect name .lockAll entry (entry.map Table.lock)
  | elsewhere {op : Operation} (h : ¬op.Concerns name) (entry : Option Table) : Effect name op entry entry

namespace Operation
variable {op : Operation} {r r' : Repository} {w w' : Workspace}

/-- An operation that puts a changed table in the place of the one of its name. -/
theorem effect_of_modify {target : String} {t t' : Table} (ht : r.tables.get? target = some t)
    (hop : ∀ name, op.Concerns name ↔ target = name) (heffect : Effect target op (some t) (some t')) (name : String) :
    Effect name op (r.tables.get? name) ((r.tables.modify target fun _ => t').get? name) := by
  rw [OrderedMap.get?_modify]
  by_cases hname : name = target
  · subst hname
    rw [if_pos rfl, ht]
    exact heffect
  · rw [if_neg hname]
    exact .elsewhere (fun h => hname ((hop name).mp h).symm) _

theorem perform_effect (h : built (op.perform r) w = (.ok r', w')) (name : String) :
    Effect name op (r.tables.get? name) (r'.tables.get? name) := by
  cases op with
  | register t =>
    rw [perform, built_liftM, Repository.register] at h
    split at h
    · cases h
    · rename_i hnew
      cases h
      have hkey : t.name ∉ r.tables.keys := by simpa [OrderedMap.contains] using hnew
      rw [OrderedMap.get?_insertNew]
      by_cases hname : name = t.name
      · rw [if_pos ⟨hkey, hname⟩, hname, OrderedMap.get?_eq_none_iff.mpr hkey]
        exact .registered rfl
      · rw [if_neg fun h => hname h.2]
        have hother : ¬(Operation.register t).Concerns name := fun h : t.name = name => hname h.symm
        exact .elsewhere hother _
  | set target n v =>
    rw [perform, built_liftM] at h
    obtain ⟨t, t', ht, hset, rfl⟩ := Repository.update_inv (congrArg Prod.fst h)
    exact effect_of_modify ht (fun _ => Iff.rfl) (.set hset) name
  | add target n v =>
    rw [perform, built_liftM] at h
    obtain ⟨t, t', ht, hadd, rfl⟩ := Repository.update_inv (congrArg Prod.fst h)
    exact effect_of_modify ht (fun _ => Iff.rfl) (.added hadd) name
  | lock target =>
    obtain ⟨t, ht, h⟩ := built_liftM_bind_eq_ok.mp h
    cases h
    exact effect_of_modify (Repository.table_eq_ok_iff.mp ht) (fun _ => Iff.rfl) (.locked t) name
  | lockAll =>
    cases h
    rw [Repository.locked, OrderedMap.get?_mapValues]
    exact .allLocked _
  | read target n =>
    obtain ⟨_, _, h⟩ := built_liftM_bind_eq_ok.mp h
    cases h
    exact .elsewhere id _

/-- An operation in place succeeds with its effect on every table, or it fails and the repository is as it was. -/
theorem step_inPlace {outcome : Except Error Unit} (h : edited op.inPlace r w = ((outcome, r'), w')) :
    (outcome = .ok () ∧ ∀ name, Effect name op (r.tables.get? name) (r'.tables.get? name)) ∨
      (∃ e, outcome = .error e) ∧ r' = r := by
  rw [edited_inPlace] at h
  rcases hperform : built (op.perform r) w with ⟨e | r₁, w₁⟩ <;> rw [hperform] at h <;> cases h
  · exact .inr ⟨⟨e, rfl⟩, rfl⟩
  · exact .inl ⟨rfl, perform_effect hperform⟩

end Operation

/-! ### Runs -/

/-- An operation and how it ended. -/
structure Event where
  operation : Operation
  outcome : Except Error Unit

/-- The operations lead from one repository to another. Between them the workspace may change. -/
inductive Ran : Repository → List Event → Repository → Prop
  | nil (r : Repository) : Ran r [] r
  | cons {r r₁ r' : Repository} {op : Operation} {outcome : Except Error Unit} {events : List Event} (w w' : Workspace)
      (h : edited op.inPlace r w = ((outcome, r₁), w')) (rest : Ran r₁ events r') : Ran r (⟨op, outcome⟩ :: events) r'

namespace Ran
variable {r r' : Repository} {events : List Event} {name : String}

/-- What every effect on the table of a name keeps is kept to the end. -/
theorem keeps {P : Option Table → Prop} (hstep : ∀ op entry entry', Effect name op entry entry' → P entry → P entry')
    (h : Ran r events r') (hstart : P (r.tables.get? name)) : P (r'.tables.get? name) := by
  induction h with
  | nil => exact hstart
  | cons w w' h _ ih =>
    rcases Operation.step_inPlace h with ⟨-, heffect⟩ | ⟨-, rfl⟩
    · exact ih (hstep _ _ _ (heffect name) hstart)
    · exact ih hstart

/-- The run up to an event, the event, and the run after it. -/
theorem split {event : Event} (h : Ran r events r') (hevent : event ∈ events) :
    ∃ before after r₁ r₂ w w', events = before ++ event :: after ∧ Ran r before r₁ ∧
      edited event.operation.inPlace r₁ w = ((event.outcome, r₂), w') ∧ Ran r₂ after r' := by
  induction h with
  | nil => cases hevent
  | cons w w' h rest ih =>
    cases hevent with
    | head => exact ⟨[], _, _, _, w, w', rfl, .nil _, h, rest⟩
    | tail _ hmem =>
      obtain ⟨before, after, r₁, r₂, v, v', rfl, hbefore, hstep, hafter⟩ := ih hmem
      exact ⟨_ :: before, after, r₁, r₂, v, v', rfl, .cons w w' h hbefore, hstep, hafter⟩

/-- Every table stands under its own name. -/
theorem name_eq (h : Ran .empty events r) {t : Table} (ht : r.tables.get? name = some t) : t.name = name := by
  refine h.keeps (P := fun entry => ∀ t, entry = some t → t.name = name) ?_ (fun t h => by cases h) t ht
  intro op entry entry' heffect hnamed t' ht'
  cases heffect with
  | registered hname => cases ht'; exact hname
  | set hset =>
    cases ht'
    obtain ⟨-, -, -, rfl⟩ := Table.set_inv hset
    exact (hnamed _ rfl :)
  | added hadd =>
    cases ht'
    obtain ⟨-, -, -, rfl⟩ := Table.add_inv hadd
    exact (hnamed _ rfl :)
  | locked t => cases ht'; exact hnamed t rfl
  | allLocked =>
    obtain ⟨t, rfl, rfl⟩ := Option.map_eq_some_iff.mp ht'
    exact hnamed t rfl
  | elsewhere => exact hnamed t' ht'

end Ran

/-- Rooms differ in their identities only. -/
def room (id : NodeId) : Node := .mk id ⟨"Room", ["Place"], [⟨"size", .int⟩]⟩ [.int 3]

/-- A list of numbers for every place. -/
def visits : Table := .create "visits" "Place" (.list .int)

/-- The list of one room has an item. -/
def oneVisit : Table := { visits with entries := OrderedMap.empty.insertNew 1 (.list [.int 7]) }

end TypedTree.Metadata
