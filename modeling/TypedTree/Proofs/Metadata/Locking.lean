import TypedTree.Proofs.Metadata.Operations

/-! Locked tables. No operation has an effect on a locked table, so once a table is locked every run leaves it as it
    is. Main statement, for every repository that operations lead to: an operation that fails changes nothing, a
    table that is locked stays a snapshot for good, and a write ends with the first of its faults. -/

namespace TypedTree.Metadata

/-! ### Writes to one table -/

namespace Table
variable {t t' : Table} {n : Node} {v : Value}

theorem set_locked (hlocked : t.locked = true) : t.set n v ≠ .ok t' := fun h => by
  obtain ⟨-, -, hopen, -⟩ := set_inv h
  rw [hlocked] at hopen
  cases hopen

theorem add_locked (hlocked : t.locked = true) : t.add n v ≠ .ok t' := fun h => by
  obtain ⟨-, -, hopen, -⟩ := add_inv h
  rw [hlocked] at hopen
  cases hopen

theorem lock_of_locked (hlocked : t.locked = true) : t.lock = t := by
  rw [lock, ← hlocked]

end Table

namespace Repository
variable {r : Repository} {name : String} {t t' : Table}

/-- A write to a table that is there ends with the first of its faults. -/
theorem fst_settled_update {f : Table → Except Error Table} {faults : List MetadataError}
    (ht : r.table name = .ok t) (hf : f t = (do reported faults; pure t')) :
    (settled r (r.update name f)).1 = reported faults := by
  rw [update, ht, ok_bind, hf]
  cases faults <;> rfl

theorem fst_edited_set (ht : r.table name = .ok t) (n : Node) (v : Value) (w : Workspace) :
    (edited (Operation.set name n v).inPlace r w).1.1 = reported (t.faults (some t.type) n v) := by
  rw [Operation.edited_inPlace, Operation.perform, built_liftM]
  exact fst_settled_update ht (t.set_eq_reported n v)

theorem fst_edited_add (ht : r.table name = .ok t) (n : Node) (v : Value) (w : Workspace) :
    (edited (Operation.add name n v).inPlace r w).1.1 = reported (t.faults t.type.listItem? n v) := by
  rw [Operation.edited_inPlace, Operation.perform, built_liftM]
  exact fst_settled_update ht (t.add_eq_reported n v)

end Repository

/-! ### Locked tables in a run -/

namespace Effect
variable {name : String} {op : Operation} {t : Table} {entry : Option Table}

theorem of_locked (h : Effect name op (some t) entry) (hlocked : t.locked = true) : entry = some t := by
  cases h with
  | set h => exact absurd h (Table.set_locked hlocked)
  | added h => exact absurd h (Table.add_locked hlocked)
  | locked => rw [Table.lock_of_locked hlocked]
  | allLocked => rw [Option.map_some, Table.lock_of_locked hlocked]
  | elsewhere => rfl

/-- No operation that succeeds writes into a locked table. -/
theorem not_write (h : Effect name op (some t) entry) (hlocked : t.locked = true) : op.write? name = none := by
  cases h with
  | set h => exact absurd h (Table.set_locked hlocked)
  | added h => exact absurd h (Table.add_locked hlocked)
  | locked | allLocked => rfl
  | elsewhere h => exact Operation.write?_eq_none h

end Effect

/-- Whatever is done from here on, the table of that name is a locked `t`, reading from it answers as `t` does, and
    every write to it fails. -/
def Snapshot (name : String) (t : Table) (r : Repository) : Prop :=
  ∀ events r', Ran r events r' → r'.table name = .ok t ∧ t.locked = true ∧ (∀ n, r'.get name n = t.get n) ∧
    ∀ event ∈ events, (event.operation.write? name).isSome → ∃ e, event.outcome = .error e

theorem Repository.snapshot_of_locked {r : Repository} {name : String} {t : Table} (ht : r.table name = .ok t)
    (hlocked : t.locked = true) : Snapshot name t r := by
  intro events r' hrun
  have kept {events : List Event} {r' : Repository} (hrun : Ran r events r') : r'.tables.get? name = some t := by
    refine hrun.keeps (P := (· = some t)) ?_ (table_eq_ok_iff.mp ht)
    rintro op _ entry heffect rfl
    exact heffect.of_locked hlocked
  have ht' := table_eq_ok_iff.mpr (kept hrun)
  refine ⟨ht', hlocked, fun n => by rw [Repository.get, ht', ok_bind], fun event hevent hwrite => ?_⟩
  obtain ⟨before, -, r₁, r₂, w, w', -, hbefore, hstep, -⟩ := hrun.split hevent
  rcases Operation.step_inPlace hstep with ⟨-, heffect⟩ | ⟨hfailed, -⟩
  · have hnone := (kept hbefore ▸ heffect name).not_write hlocked
    rw [hnone] at hwrite
    cases hwrite
  · exact hfailed

theorem Repository.lock_inPlace {r : Repository} {name : String} {t : Table} (ht : r.table name = .ok t)
    {op : Operation} (hop : op = .lock name ∨ op = .lockAll) (w : Workspace) :
    ∃ r' w', edited op.inPlace r w = ((.ok (), r'), w') ∧ r'.table name = .ok t.lock := by
  rw [table_eq_ok_iff] at ht
  rcases hop with rfl | rfl
  · refine ⟨_, _, edited_within ht (edited_lock t w), ?_⟩
    rw [table_eq_ok_iff, OrderedMap.get?_modify, if_pos rfl, ht]
    rfl
  · refine ⟨r.locked, _, rfl, ?_⟩
    rw [table_locked, table_eq_ok_iff.mpr ht]
    rfl

/-- Failures change nothing and a lock is final. A table stands under its own name, a write to it ends with the first
    of its faults, and from the moment it is locked on it is a snapshot, which answers as it did at that moment. -/
theorem Ran.lock_final {before : List Event} {r : Repository} (h : Ran .empty before r) :
    (∀ (op : Operation) w e r' w', edited op.inPlace r w = ((.error e, r'), w') → r' = r) ∧
    ∀ name t, r.table name = .ok t → t.name = name ∧
      (∀ n v w, (edited (Operation.set name n v).inPlace r w).1.1 = reported (t.faults (some t.type) n v) ∧
        (edited (Operation.add name n v).inPlace r w).1.1 = reported (t.faults t.type.listItem? n v)) ∧
      (∀ op : Operation, op = .lock name ∨ op = .lockAll → ∀ w, ∃ r' w', edited op.inPlace r w = ((.ok (), r'), w') ∧
        Snapshot name t.lock r' ∧ ∀ n, t.lock.get n = r.get name n) ∧
      (t.locked = true → Snapshot name t r) := by
  refine ⟨fun op w e r' w' hstep => ?_, fun name t ht => ⟨?_, fun n v w => ⟨?_, ?_⟩, fun op hop w => ?_, ?_⟩⟩
  · rcases Operation.step_inPlace hstep with ⟨hok, -⟩ | ⟨-, hkept⟩
    · cases hok
    · exact hkept
  · exact h.name_eq (Repository.table_eq_ok_iff.mp ht)
  · exact Repository.fst_edited_set ht n v w
  · exact Repository.fst_edited_add ht n v w
  · obtain ⟨r', w', hrun, ht'⟩ := Repository.lock_inPlace ht hop w
    refine ⟨r', w', hrun, Repository.snapshot_of_locked ht' rfl, fun n => ?_⟩
    rw [Repository.get, ht, ok_bind]
    rfl
  · exact Repository.snapshot_of_locked ht

theorem ran_oneVisit_lock : Ran .empty [⟨.register visits, .ok ()⟩, ⟨.add "visits" (room 1) (.int 7), .ok ()⟩,
      ⟨.lockAll, .ok ()⟩, ⟨.add "visits" (room 1) (.int 8), .error (.metadata (.readonly "visits"))⟩]
    ⟨OrderedMap.empty.insertNew "visits" oneVisit.lock⟩ :=
  .cons {} _ rfl (.cons {} _ rfl (.cons {} _ rfl (.cons {} _ rfl (.nil _))))

/-- A text that is added to a locked list of numbers has a wrong type, which is reported before the lock. -/
theorem Ran.lock_final_visits : ∃ before r, Ran .empty before r ∧ r.table "visits" = .ok oneVisit.lock ∧
    Snapshot "visits" oneVisit.lock r ∧ oneVisit.lock.get (room 1) = .ok (.list [.int 7]) ∧
    (edited (Operation.add "visits" (room 1) (.str "x")).inPlace r {}).1.1 =
      .error (.metadata (.valueType "visits" "Int" "Str")) := by
  obtain ⟨-, hfaults, -, hsnapshot⟩ := ran_oneVisit_lock.lock_final.2 "visits" oneVisit.lock rfl
  exact ⟨_, _, ran_oneVisit_lock, rfl, hsnapshot rfl, rfl, (hfaults (room 1) (.str "x") {}).2⟩

end TypedTree.Metadata
