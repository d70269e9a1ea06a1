import Mathlib.Data.Finset.Card
import Mathlib.Data.List.DropRight
import TypedTree.Proofs.Metadata.Operations
import TypedTree.Proofs.Tree.Made

/-! Side tables as logs of writes. What a table answers for a node is computed from the writes to the node's identity,
    without the table: the value set last and the items added since. Main statement: after every run a registered
    table answers as the log of the successful writes to it, before and after it was registered, and it has as many
    entries as there are identities in the log. -/

namespace TypedTree

theorem FieldType.eq_list_of_admits {type item : FieldType} {v : Value} (hitem : type.listItem? = some item)
    (hv : type.admits v = true) : ∃ items, v = .list items := by
  cases type <;> cases hitem
  cases v <;> first | exact ⟨_, rfl⟩ | simp [FieldType.admits] at hv

namespace Metadata

/-! ### Logs -/

namespace Change

def stored? : Change → Option Value
  | .set v => some v
  | .add _ => none

def added? : Change → Option Value
  | .set _ => none
  | .add v => some v

end Change

/-- The changes of the entry of an identity, oldest first. -/
def changesOf (id : NodeId) (log : List Write) : List Change := (log.filter (·.id = id)).map (·.change)

/-- The value set last; an empty list, if none was set. -/
def lastSet (changes : List Change) : Value := (changes.filterMap Change.stored?).getLast?.getD (.list [])

/-- The items added after the last value was set, in order. -/
def addedSince (changes : List Change) : List Value :=
  (changes.rtakeWhile (·.added?.isSome)).filterMap Change.added?

/-- A list with more items at its end. -/
def followedBy : Value → List Value → Value
  | .list items, more => .list (items ++ more)
  | v, _ => v

/-- What is stored after the changes. -/
def storedAfter (changes : List Change) : Option Value :=
  if changes = [] then none else some (followedBy (lastSet changes) (addedSince changes))

/-- What a table like `t` answers for an identity after the changes. -/
def reading (t : Table) (id : NodeId) (changes : List Change) : Except Error Value :=
  if changes ≠ [] then .ok (followedBy (lastSet changes) (addedSince changes))
  else if t.type.listItem?.isSome then .ok (.list [])
  else .error (.metadata (.notSet t.name id))

section
variable {changes : List Change} {v : Value} {id : NodeId} {log : List Write}

@[simp] theorem followedBy_nil (v : Value) : followedBy v [] = v := by
  cases v <;> simp [followedBy]

@[simp] theorem lastSet_set : lastSet (changes ++ [.set v]) = v := by
  simp [lastSet, Change.stored?]

@[simp] theorem lastSet_add : lastSet (changes ++ [.add v]) = lastSet changes := by
  simp [lastSet, Change.stored?]

@[simp] theorem addedSince_set : addedSince (changes ++ [.set v]) = [] := by
  simp [addedSince, Change.added?]

@[simp] theorem addedSince_add : addedSince (changes ++ [.add v]) = addedSince changes ++ [v] := by
  simp [addedSince, Change.added?]

theorem changesOf_concat (w : Write) :
    changesOf id (log ++ [w]) = if w.id = id then changesOf id log ++ [w.change] else changesOf id log := by
  by_cases h : w.id = id <;> simp [changesOf, h]

theorem changesOf_eq_nil : changesOf id log = [] ↔ ∀ w ∈ log, w.id ≠ id := by
  simp [changesOf]

theorem storedAfter_set : storedAfter (changes ++ [.set v]) = some v := by
  simp [storedAfter]

/-- An item added to a list goes to its end. -/
theorem storedAfter_add {items : List Value} (hlist : lastSet changes = .list items) :
    storedAfter (changes ++ [.add v]) = some (Table.appended v (storedAfter changes)) := by
  by_cases h : changes = []
  · subst h
    rfl
  · simp [storedAfter, h, hlist, followedBy, Table.appended]

end

/-! ### Tables and their logs -/

/-- The table is `start` but for a lock, and with the entries that the log says. -/
structure Records (start : Table) (log : List Write) (t : Table) : Prop where
  name : t.name = start.name
  owner : t.owner = start.owner
  type : t.type = start.type
  entry : ∀ id, t.entries.get? id = storedAfter (changesOf id log)
  /-- In a table of lists, lists are set. -/
  lists : t.type.listItem?.isSome → ∀ id, ∃ items, lastSet (changesOf id log) = .list items
  /-- In any other table nothing is added. -/
  scalars : t.type.listItem?.isSome = false → ∀ id, addedSince (changesOf id log) = []

/-- The table holds what was written to it since it was created. -/
inductive Filled : Table → List Write → Prop
  | created (name owner : String) (type : FieldType) : Filled (.create name owner type) []
  | set {t t' : Table} {n : Node} {v : Value} {log : List Write} (filled : Filled t log) (h : t.set n v = .ok t') :
      Filled t' (log ++ [⟨n.id, .set v⟩])
  | added {t t' : Table} {n : Node} {v : Value} {log : List Write} (filled : Filled t log) (h : t.add n v = .ok t') :
      Filled t' (log ++ [⟨n.id, .add v⟩])
  | locked {t : Table} {log : List Write} (filled : Filled t log) : Filled t.lock log

namespace Records
variable {start t t' : Table} {log : List Write} {n : Node} {v : Value}

/-- A change of one entry that the log of its identity agrees with. -/
theorem write (h : Records start log t) {w : Write} (hentry : storedAfter (changesOf w.id log ++ [w.change]) = some v)
    (hlists : t.type.listItem?.isSome → ∃ items, lastSet (changesOf w.id log ++ [w.change]) = .list items)
    (hscalars : t.type.listItem?.isSome = false → addedSince (changesOf w.id log ++ [w.change]) = []) :
    Records start (log ++ [w]) { t with entries := t.entries.insert w.id v } where
  name := h.name
  owner := h.owner
  type := h.type
  entry id := by
    rw [OrderedMap.get?_insert, changesOf_concat]
    by_cases hid : w.id = id
    · rw [if_pos hid.symm, if_pos hid, ← hid, hentry]
    · rw [if_neg (Ne.symm hid), if_neg hid, h.entry]
  lists hlist id := by
    rw [changesOf_concat]
    by_cases hid : w.id = id
    · rw [if_pos hid, ← hid]
      exact hlists hlist
    · rw [if_neg hid]
      exact h.lists hlist id
  scalars hscalar id := by
    rw [changesOf_concat]
    by_cases hid : w.id = id
    · rw [if_pos hid, ← hid]
      exact hscalars hscalar
    · rw [if_neg hid]
      exact h.scalars hscalar id

theorem set (h : Records start log t) (hset : t.set n v = .ok t') : Records start (log ++ [⟨n.id, .set v⟩]) t' := by
  obtain ⟨-, hv, -, rfl⟩ := Table.set_inv hset
  refine h.write (w := ⟨n.id, .set v⟩) storedAfter_set (fun hlist => ?_) fun _ => addedSince_set
  obtain ⟨item, hitem⟩ := Option.isSome_iff_exists.mp hlist
  rw [lastSet_set]
  exact FieldType.eq_list_of_admits hitem hv

theorem add (h : Records start log t) (hadd : t.add n v = .ok t') : Records start (log ++ [⟨n.id, .add v⟩]) t' := by
  obtain ⟨-, ⟨item, hitem, -⟩, -, rfl⟩ := Table.add_inv hadd
  have hlist : t.type.listItem?.isSome := by rw [hitem]; rfl
  obtain ⟨items, hlast⟩ := h.lists hlist n.id
  refine h.write (w := ⟨n.id, .add v⟩) ?_ (fun _ => ⟨items, lastSet_add.trans hlast⟩) fun hscalar => ?_
  · rw [h.entry]
    exact storedAfter_add hlast
  · rw [hlist] at hscalar
    cases hscalar

theorem lock (h : Records start log t) : Records start log t.lock := ⟨h.name, h.owner, h.type, h.entry, h.lists, h.scalars⟩

theorem of_filled (h : Filled t log) : Records t log t := by
  suffices hkind : ∀ start : Table, start.name = t.name → start.owner = t.owner → start.type = t.type →
      Records start log t from hkind t rfl rfl rfl
  induction h with
  | created name owner type =>
    intro start hname howner htype
    refine ⟨hname.symm, howner.symm, htype.symm, fun _ => rfl, fun _ _ => ⟨[], rfl⟩, fun _ _ => rfl⟩
  | set _ h ih =>
    obtain ⟨-, -, -, rfl⟩ := Table.set_inv h
    exact fun start hname howner htype => (ih start hname howner htype).set h
  | added _ h ih =>
    obtain ⟨-, -, -, rfl⟩ := Table.add_inv h
    exact fun start hname howner htype => (ih start hname howner htype).add h
  | locked _ ih => exact fun start hname howner htype => (ih start hname howner htype).lock

/-! ### What is read -/

theorem get_eq (h : Records start log t) (hn : n.isA start.owner = true) :
    t.get n = reading start n.id (changesOf n.id log) := by
  have howner : n.isA t.owner = true := h.owner ▸ hn
  by_cases hnil : changesOf n.id log = []
  · have hentry : t.entries.get? n.id = none := by rw [h.entry, hnil]; rfl
    rw [Table.get_of_no_entry howner hentry, hnil, reading, if_neg (by simp), h.type, h.name]
    cases start.type.listItem? <;> rfl
  · have hentry := h.entry n.id
    rw [storedAfter, if_neg hnil] at hentry
    rw [Table.get_of_entry howner hentry, reading, if_pos hnil]

/-- The entries are those of the identities in the log. -/
theorem size_eq (h : Records start log t) : t.size = (log.map (·.id)).toFinset.card := by
  have hkeys : t.entries.keys.toFinset = (log.map (·.id)).toFinset := by
    ext id
    rw [List.mem_toFinset, List.mem_toFinset, ← not_iff_not, ← OrderedMap.get?_eq_none_iff, h.entry, storedAfter]
    simp [changesOf_eq_nil]
  rw [← hkeys, List.toFinset_card_of_nodup (l := t.entries.keys) t.entries.nodup_keys]
  exact (List.length_map _).symm

end Records

/-! ### Runs -/

def Event.write? (name : String) (event : Event) : Option Write :=
  match event.outcome with
  | .ok () => event.operation.write? name
  | .error _ => none

/-- The writes to the table of that name that succeeded, in order. -/
def writesTo (name : String) (events : List Event) : List Write := events.filterMap (Event.write? name)

theorem writesTo_cons {name : String} {op : Operation} {events : List Event} :
    writesTo name (⟨op, .ok ()⟩ :: events) = (op.write? name).toList ++ writesTo name events := by
  rw [writesTo, List.filterMap_cons, Event.write?]
  cases op.write? name <;> rfl

namespace Effect
variable {name : String} {op : Operation} {entry entry' : Option Table}

/-- An effect on a table is in its log. -/
theorem records {start t : Table} {log : List Write} (h : Effect name op (some t) entry)
    (hrecords : Records start log t) :
    ∃ t', entry = some t' ∧ Records start (log ++ (op.write? name).toList) t' := by
  cases h with
  | set h =>
    refine ⟨_, rfl, ?_⟩
    rw [Operation.write?, if_pos rfl]
    exact hrecords.set h
  | added h =>
    refine ⟨_, rfl, ?_⟩
    rw [Operation.write?, if_pos rfl]
    exact hrecords.add h
  | locked | allLocked =>
    refine ⟨_, rfl, ?_⟩
    show Records start (log ++ []) t.lock
    rw [List.append_nil]
    exact hrecords.lock
  | elsewhere h =>
    refine ⟨_, rfl, ?_⟩
    rw [Operation.write?_eq_none h, Option.toList_none, List.append_nil]
    exact hrecords

/-- Where no table is afterwards nothing was written, and there was none before. -/
theorem of_none (h : Effect name op entry entry') (hnone : entry' = none) : entry = none ∧ op.write? name = none := by
  cases h with
  | registered | set | added | locked => cases hnone
  | allLocked => exact ⟨Option.map_eq_none_iff.mp hnone, rfl⟩
  | elsewhere h => exact ⟨hnone, Operation.write?_eq_none h⟩

/-- A table is registered only where none is. -/
theorem of_register {t : Table} (h : Effect name (.register t) entry entry') (hname : t.name = name) :
    entry = none ∧ entry' = some t := by
  cases h with
  | registered => exact ⟨rfl, rfl⟩
  | elsewhere h => exact absurd hname h

end Effect

namespace Ran
variable {r r' : Repository} {events : List Event} {name : String} {start t : Table} {log : List Write}

theorem records (h : Ran r events r') (ht : r.tables.get? name = some t) (hrecords : Records start log t) :
    ∃ t', r'.tables.get? name = some t' ∧ Records start (log ++ writesTo name events) t' := by
  induction h generalizing t log with
  | nil => exact ⟨t, ht, by rwa [writesTo, List.filterMap_nil, List.append_nil]⟩
  | cons w w' h _ ih =>
    rcases Operation.step_inPlace h with ⟨rfl, heffect⟩ | ⟨⟨e, rfl⟩, rfl⟩
    · obtain ⟨t₁, ht₁, hrecords₁⟩ := (ht ▸ heffect name).records hrecords
      rw [writesTo_cons, ← List.append_assoc]
      exact ih ht₁ hrecords₁
    · exact ih ht hrecords

/-- Nothing is written where no table is. -/
theorem writesTo_eq_nil (h : Ran r events r') (ht : r'.tables.get? name = none) :
    r.tables.get? name = none ∧ writesTo name events = [] := by
  induction h with
  | nil => exact ⟨ht, rfl⟩
  | cons w w' h _ ih =>
    obtain ⟨ht₁, hnil⟩ := ih ht
    rcases Operation.step_inPlace h with ⟨rfl, heffect⟩ | ⟨⟨e, rfl⟩, rfl⟩
    · obtain ⟨ht₀, hwrite⟩ := (heffect name).of_none ht₁
      exact ⟨ht₀, by rw [writesTo_cons, hnil, hwrite]; rfl⟩
    · exact ⟨ht₁, hnil⟩

/-- A table that was registered records what was written to it before and in the run. -/
theorem records_of_registered (h : Ran .empty events r) (hfilled : Filled start log)
    (hregistered : ⟨.register start, .ok ()⟩ ∈ events) :
    ∃ t, r.tables.get? start.name = some t ∧ Records start (log ++ writesTo start.name events) t := by
  obtain ⟨before, after, r₁, r₂, w, w', rfl, hbefore, hstep, hafter⟩ := h.split hregistered
  rcases Operation.step_inPlace hstep with ⟨-, heffect⟩ | ⟨⟨e, he⟩, -⟩
  · obtain ⟨hnew, hplaced⟩ := (heffect start.name).of_register rfl
    obtain ⟨-, hnil⟩ := hbefore.writesTo_eq_nil hnew
    obtain ⟨t, ht, hrecords⟩ := hafter.records hplaced (.of_filled hfilled)
    refine ⟨t, ht, ?_⟩
    rw [writesTo, List.filterMap_append, ← writesTo, hnil, List.nil_append, ← writesTo, writesTo_cons]
    exact hrecords
  · cases he

/-- A registered table answers as the log of the successful writes to it: those before it was registered and those of
    the run. The entry of a node depends on the writes to its identity alone, items are added to lists only, there is
    an entry for every identity in the log, and a node made after the writes has none. -/
theorem get_eq_reading (h : Ran .empty events r) (hfilled : Filled start log)
    (hregistered : ⟨.register start, .ok ()⟩ ∈ events) {writes : List Write}
    (hwrites : writes = log ++ writesTo start.name events) :
    ∃ t, r.table start.name = .ok t ∧ t.name = start.name ∧ t.owner = start.owner ∧ t.type = start.type ∧
      (∀ n : Node, n.isA start.owner = true → r.get start.name n = reading start n.id (changesOf n.id writes)) ∧
      (∀ id, addedSince (changesOf id writes) ≠ [] → ∃ items, lastSet (changesOf id writes) = .list items) ∧
      t.size = (writes.map (·.id)).toFinset.card ∧
      ∀ (n : Node) w, (∀ write ∈ writes, write.id < w.nextId) → n.MadeIn w → n.isA start.owner = true →
        r.get start.name n = reading start n.id [] := by
  obtain ⟨t, ht, hrecords⟩ := h.records_of_registered hfilled hregistered
  rw [← hwrites] at hrecords
  have htable := Repository.table_eq_ok_iff.mpr ht
  have hget (n : Node) (hn : n.isA start.owner = true) :
      r.get start.name n = reading start n.id (changesOf n.id writes) := by
    rw [Repository.get, htable, ok_bind, hrecords.get_eq hn]
  refine ⟨t, htable, hrecords.name, hrecords.owner, hrecords.type, hget, fun id hadded => ?_, hrecords.size_eq,
    fun n w hids hmade hn => ?_⟩
  · cases hlist : t.type.listItem?.isSome with
    | true => exact hrecords.lists hlist id
    | false => exact absurd (hrecords.scalars hlist id) hadded
  · have hnone : changesOf n.id writes = [] :=
      changesOf_eq_nil.mpr fun write hwrite => (Nat.lt_of_lt_of_le (hids write hwrite) hmade.le_id).ne
    rw [hget n hn, hnone]

theorem ran_oneVisit : Ran .empty [⟨.register oneVisit, .ok ()⟩, ⟨.add "visits" (room 1) (.int 8), .ok ()⟩,
      ⟨.add "visits" (room 2) (.int 9), .ok ()⟩,
      ⟨.add "visits" (room 2) (.str "x"), .error (.metadata (.valueType "visits" "Int" "Str"))⟩]
    ⟨OrderedMap.empty.insertNew "visits" { visits with
      entries := (OrderedMap.empty.insertNew 1 (.list [.int 7, .int 8])).insertNew 2 (.list [.int 9]) }⟩ :=
  .cons {} _ rfl (.cons {} _ rfl (.cons {} _ rfl (.cons {} _ rfl (.nil _))))

/-- A list of one item, set before the table is registered, has another one added to it. A second room of the same
    content has its own list, from which a text is refused, and a third one has none. -/
theorem get_eq_reading_visits : Filled oneVisit [⟨1, .set (.list [.int 7])⟩] ∧ ∃ events r, Ran .empty events r ∧
    ⟨.register oneVisit, .ok ()⟩ ∈ events ∧ ∃ t, r.table "visits" = .ok t ∧ t.size = 2 ∧
      r.get "visits" (room 1) = .ok (.list [.int 7, .int 8]) ∧ r.get "visits" (room 2) = .ok (.list [.int 9]) ∧
      r.get "visits" (room 3) = .ok (.list []) := by
  have hfilled : Filled oneVisit [⟨1, .set (.list [.int 7])⟩] :=
    .set (n := room 1) (.created "visits" "Place" (.list .int)) rfl
  obtain ⟨t, ht, -, -, -, hget, -, hsize, -⟩ := ran_oneVisit.get_eq_reading hfilled (.head _) rfl
  exact ⟨hfilled, _, _, ran_oneVisit, .head _, t, ht, hsize, hget (room 1) rfl, hget (room 2) rfl, hget (room 3) rfl⟩

end Ran
end Metadata
end TypedTree
