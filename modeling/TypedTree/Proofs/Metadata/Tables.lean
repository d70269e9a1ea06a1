import Mathlib.Data.List.Nodup
import TypedTree.Metadata.Repository

/-! Side tables by what they read. A write that passes the checks changes the entry of one node, and an operation on
    one table of a repository leaves the other tables as they are. `Table.faults` lists all that is wrong with a write;
    the write fails with the first of them. -/

namespace TypedTree

/-! ### Stored values -/

namespace OrderedMap
variable {κ ν : Type} [DecidableEq κ] {m : OrderedMap κ ν} {k : κ} {v : ν}

theorem get?_mapValues {ν' : Type} (f : ν → ν') (m : OrderedMap κ ν) (k : κ) :
    (m.mapValues f).get? k = (m.get? k).map f := by
  simp only [get?, mapValues, List.find?_map, Option.map_map]
  rfl

theorem eq_of_get? (h : m.get? k = some v) {e : κ × ν} (he : e ∈ m.entries) (hk : e.1 = k) : e.2 = v := by
  obtain ⟨found, hfound, rfl⟩ := Option.map_eq_some_iff.mp h
  have hkey : found.1 = k := by simpa using List.find?_some hfound
  exact congrArg Prod.snd
    (List.inj_on_of_nodup_map m.nodup_keys he (List.mem_of_find?_eq_some hfound) (hk.trans hkey.symm))

/-- To change a value is to put the changed one in its place. -/
theorem modify_eq (h : m.get? k = some v) (f : ν → ν) : m.modify k f = m.modify k fun _ => f v := by
  ext1
  refine List.map_congr_left fun e he => ?_
  by_cases hk : e.1 = k
  · rw [if_pos hk, if_pos hk, eq_of_get? h he hk]
  · rw [if_neg hk, if_neg hk]

/-- Putting a value in its own place changes nothing. -/
theorem modify_self (h : m.get? k = some v) : (m.modify k fun _ => v) = m := by
  refine (modify_eq h id).symm.trans ?_
  ext1
  exact (List.map_congr_left fun e _ => ite_self e).trans (List.map_id _)

/-- A default that is put there first is what a new value is made from. -/
theorem modify_insertNew (m : OrderedMap κ ν) (k : κ) (v : ν) (f : ν → ν) :
    (m.insertNew k v).modify k f = m.insert k (f ((m.get? k).getD v)) := by
  cases h : m.get? k with
  | some u =>
    have hk := mem_keys_of_get? h
    rw [insertNew, dif_pos hk, insert, if_pos hk, modify_eq h, Option.getD_some]
  | none =>
    have hk := get?_eq_none_iff.mp h
    have hne : ∀ e ∈ m.entries, ¬e.1 = k := fun e he hek => hk (hek ▸ List.mem_map_of_mem he)
    rw [insert, if_neg hk, insertNew, dif_neg hk, insertNew, dif_neg hk, Option.getD_none]
    ext1
    show (m.entries ++ [(k, v)]).map (fun e => if e.1 = k then (e.1, f e.2) else e) = m.entries ++ [(k, f v)]
    rw [List.map_append, List.map_congr_left fun e he => if_neg (hne e he), List.map_id', List.map_singleton, if_pos rfl]

end OrderedMap

namespace Metadata

/-! ### Tables -/

/-- Of several faults the first one is reported. -/
def reported : List MetadataError → Except Error Unit
  | [] => .ok ()
  | fault :: _ => .error (.metadata fault)

theorem reported_bind_eq_ok {α : Type} {faults : List MetadataError} {a b : α} :
    (reported faults >>= fun _ => pure a) = .ok b ↔ faults = [] ∧ a = b := by
  cases faults <;> simp [reported, bind, Except.bind, pure, Except.pure]

namespace Table
variable {t t' : Table} {n : Node} {v : Value}

/-- All that is wrong with a write of `v` for `n`, most important first. Nothing is expected where only lists can be
    added to. -/
def faults (t : Table) (expected : Option FieldType) (n : Node) (v : Value) : List MetadataError :=
  (if n.isA t.owner then [] else [.nodeType t.name n.kind]) ++
  (match expected with
    | none => [.notList t.name (toString t.type)]
    | some type => if type.admits v then [] else [.valueType t.name (toString type) v.typeName]) ++
  (if t.locked then [.readonly t.name] else [])

theorem faults_eq_nil {expected : Option FieldType} : t.faults expected n v = [] ↔
    n.isA t.owner = true ∧ (∃ type, expected = some type ∧ type.admits v = true) ∧ t.locked = false := by
  cases expected <;> simp [faults]

theorem set_eq_reported (t : Table) (n : Node) (v : Value) : t.set n v = (do
    reported (t.faults (some t.type) n v)
    pure { t with entries := t.entries.insert n.id v }) := by
  simp only [set, checkOwner, checkValue, checkWritable, faults]
  cases n.isA t.owner <;> cases t.type.admits v <;> cases t.locked <;> rfl

theorem add_eq_reported (t : Table) (n : Node) (v : Value) : t.add n v = (do
    reported (t.faults t.type.listItem? n v)
    pure { t with entries := t.entries.insert n.id (appended v (t.entries.get? n.id)) }) := by
  simp only [add, checkOwner, checkValue, checkWritable, faults]
  cases t.type.listItem? with
  | none => cases n.isA t.owner <;> rfl
  | some item =>
    simp only [pure_bind]
    cases n.isA t.owner <;> cases item.admits v <;> cases t.locked <;> rfl

theorem set_inv (h : t.set n v = .ok t') : n.isA t.owner = true ∧ t.type.admits v = true ∧ t.locked = false ∧
    t' = { t with entries := t.entries.insert n.id v } := by
  rw [set_eq_reported, reported_bind_eq_ok, faults_eq_nil] at h
  obtain ⟨⟨howner, ⟨_, ⟨⟩, hv⟩, hopen⟩, rfl⟩ := h
  exact ⟨howner, hv, hopen, rfl⟩

theorem add_inv (h : t.add n v = .ok t') : n.isA t.owner = true ∧
    (∃ item, t.type.listItem? = some item ∧ item.admits v = true) ∧ t.locked = false ∧
    t' = { t with entries := t.entries.insert n.id (appended v (t.entries.get? n.id)) } := by
  rw [add_eq_reported, reported_bind_eq_ok, faults_eq_nil] at h
  obtain ⟨⟨howner, hitem, hopen⟩, rfl⟩ := h
  exact ⟨howner, hitem, hopen, rfl⟩

theorem set_eq_ok (howner : n.isA t.owner = true) (hv : t.type.admits v = true) (hopen : t.locked = false) :
    t.set n v = .ok { t with entries := t.entries.insert n.id v } := by
  simp only [set, checkOwner, checkValue, checkWritable, howner, hv, hopen, if_true, Bool.false_eq_true, if_false]
  rfl

theorem add_eq_ok (howner : n.isA t.owner = true) {item : FieldType} (hitem : t.type.listItem? = some item)
    (hv : item.admits v = true) (hopen : t.locked = false) :
    t.add n v = .ok { t with entries := t.entries.insert n.id (appended v (t.entries.get? n.id)) } := by
  simp only [add, checkOwner, checkValue, checkWritable, howner, hitem, hopen, if_true, Bool.false_eq_true, if_false,
    pure_bind, hv]
  rfl

theorem get_of_entry (howner : n.isA t.owner = true) (h : t.entries.get? n.id = some v) : t.get n = .ok v := by
  simp only [get, checkOwner, howner, h, if_true]
  rfl

theorem get_of_no_entry (howner : n.isA t.owner = true) (h : t.entries.get? n.id = none) :
    t.get n = match t.type.listItem? with
      | some _ => .ok (.list [])
      | none => .error (.metadata (.notSet t.name n.id)) := by
  simp only [get, checkOwner, howner, h, if_true]
  cases t.type.listItem? <;> rfl

end Table

/-! ### Repositories -/

namespace Repository
variable {r : Repository} {name : String} {t t' : Table}

theorem table_update (ht : r.table name = .ok t) {f : Table → Except Error Table} (hf : f t = .ok t') :
    ∃ r', r.update name f = .ok r' ∧ r'.table name = .ok t' ∧ ∀ other ≠ name, r'.table other = r.table other := by
  have hget : r.tables.get? name = some t := by
    unfold table at ht
    cases hg : r.tables.get? name with
    | none => rw [hg] at ht; cases ht
    | some found => rw [hg] at ht; cases ht; rfl
  refine ⟨⟨r.tables.modify name fun _ => t'⟩, ?_, ?_, fun other hne => ?_⟩
  · rw [update, ht]
    show (do let t ← f t; pure _ : Except Error Repository) = _
    rw [hf]
    rfl
  · rw [table, OrderedMap.get?_modify, if_pos rfl, hget]
    rfl
  · rw [table, OrderedMap.get?_modify, if_neg hne]
    rfl

theorem table_locked (r : Repository) (name : String) : r.locked.table name = (r.table name).map Table.lock := by
  rw [table, table, locked, OrderedMap.get?_mapValues]
  cases r.tables.get? name <;> rfl

end Repository
end Metadata
end TypedTree
