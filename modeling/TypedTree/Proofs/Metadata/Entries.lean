import TypedTree.Proofs.Metadata.Operations
import TypedTree.Proofs.Tree.Reading

/-! The entries of a table. A value that is set is checked as a whole, one that is added only as an item; but in a table
    of lists every entry is a list, so an item goes to the end of a list that is there or of an empty one. Whatever a
    table is asked to do from its creation on, and whether it does it or not, its entries have the type of the table and
    were written through nodes of the owning class. -/

namespace TypedTree

theorem FieldType.eq_list_of_listItem? {type item : FieldType} (h : type.listItem? = some item) : type = .list item := by
  cases type <;> cases h
  rfl

/-- What is stored under a key after a default was put there. -/
theorem OrderedMap.get?_insertNew_self {κ ν : Type} [DecidableEq κ] (m : OrderedMap κ ν) (k : κ) (v : ν) :
    (m.insertNew k v).get? k = some ((m.get? k).getD v) := by
  rw [get?_insertNew]
  cases h : m.get? k with
  | none => rw [if_pos ⟨get?_eq_none_iff.mp h, rfl⟩, Option.getD_none]
  | some u => rw [if_neg fun hk => hk.1 (mem_keys_of_get? h), Option.getD_some]

namespace Metadata

theorem Settles.ended {σ : Type} {x : EditM Error σ Unit} {s s' : σ} {y : Except Error σ} {outcome : Except Error Unit}
    {w w' : Workspace} (hx : Settles x s y) (h : edited x s w = ((outcome, s'), w')) :
    outcome = .ok () ∧ y = .ok s' ∨ (∃ e, outcome = .error e) ∧ s' = s := by
  rw [hx w] at h
  cases y with
  | ok s₁ =>
    cases h
    exact .inl ⟨rfl, rfl⟩
  | error e =>
    cases h
    exact .inr ⟨⟨e, rfl⟩, rfl⟩

namespace Table

/-! ### Requests -/

/-- What a table is asked to do. -/
inductive Request where
  | set (n : Node) (v : Value)
  | add (n : Node) (v : Value)
  | lock

namespace Request

/-- The request where the table stands. -/
def inPlace : Request → EditM Error Table Unit
  | .set n v => InPlace.store n v
  | .add n v => InPlace.push n v
  | .lock => InPlace.lock

/-- The node whose entry is to be written. -/
def node? : Request → Option Node
  | .set n _ | .add n _ => some n
  | .lock => none

end Request

/-- A request and how it ended. -/
structure Answer where
  request : Request
  outcome : Except Error Unit

/-- The entry of the node was written. -/
def Answer.Wrote (a : Answer) (n : Node) : Prop := a.outcome = .ok () ∧ a.request.node? = some n

/-- The table after requests, those that failed among them. Between them the workspace may change. -/
inductive Served (start : Table) : List Answer → Table → Prop
  | none : Served start [] start
  | next {log : List Answer} {t t' : Table} {outcome : Except Error Unit} {w w' : Workspace} (request : Request)
      (before : Served start log t) (h : edited request.inPlace t w = ((outcome, t'), w')) :
      Served start (log ++ [⟨request, outcome⟩]) t'

/-- What a request that succeeds does. -/
inductive Done : Request → Table → Table → Prop
  | set {t t' : Table} {n : Node} {v : Value} (h : t.set n v = .ok t') : Done (.set n v) t t'
  | added {t t' : Table} {n : Node} {v : Value} (h : t.add n v = .ok t') : Done (.add n v) t t'
  | locked (t : Table) : Done .lock t t.lock

theorem Request.ended {r : Request} {t t' : Table} {outcome : Except Error Unit} {w w' : Workspace}
    (h : edited r.inPlace t w = ((outcome, t'), w')) :
    outcome = .ok () ∧ Done r t t' ∨ (∃ e, outcome = .error e) ∧ t' = t := by
  cases r with
  | set n v => exact ((store_settles n v t).ended h).imp_left (And.imp_right .set)
  | add n v => exact ((push_settles n v t).ended h).imp_left (And.imp_right .added)
  | lock =>
    rw [inPlace, edited_lock] at h
    cases h
    exact .inl ⟨rfl, .locked t⟩

/-! ### Typed entries -/

/-- The entries are values of the type, and were written through nodes of the owning class. -/
structure TypedBy (start : Table) (log : List Answer) (t : Table) : Prop where
  name : t.name = start.name
  owner : t.owner = start.owner
  type : t.type = start.type
  admitted : ∀ id v, t.entries.get? id = some v → start.type.admits v = true
  written : ∀ id v, t.entries.get? id = some v → ∃ a ∈ log, ∃ n, a.Wrote n ∧ n.id = id
  owned : ∀ a ∈ log, ∀ n, a.Wrote n → n.isA start.owner = true

namespace TypedBy
variable {start t t' : Table} {log : List Answer} {r : Request} {n : Node} {v : Value}

/-- In a table of lists an item is added to a list, if only to an empty one, and as a list with the item it is stored. -/
theorem appended_eq_list (h : TypedBy start log t) (id : NodeId) {item : FieldType} (hitem : t.type.listItem? = some item)
    (hv : item.admits v = true) :
    ∃ items, (t.entries.get? id).getD (.list []) = .list items ∧
      appended v (t.entries.get? id) = .list (items ++ [v]) ∧
      start.type.admits (appended v (t.entries.get? id)) = true := by
  have htype : start.type = .list item := h.type.symm.trans (FieldType.eq_list_of_listItem? hitem)
  have hlist : ∃ items, (t.entries.get? id).getD (.list []) = .list items ∧
      appended v (t.entries.get? id) = .list (items ++ [v]) ∧ ∀ x ∈ items, item.admits x = true := by
    cases hentry : t.entries.get? id with
    | none => exact ⟨[], rfl, rfl, by simp⟩
    | some u =>
      obtain ⟨items, rfl, hitems⟩ := FieldType.admits_list_iff.mp (htype ▸ h.admitted id u hentry)
      exact ⟨items, rfl, rfl, hitems⟩
  obtain ⟨items, hbefore, hafter, hitems⟩ := hlist
  refine ⟨items, hbefore, hafter, ?_⟩
  rw [htype, hafter]
  refine FieldType.admits_list_iff.mpr ⟨items ++ [v], rfl, fun x hx => ?_⟩
  rcases List.mem_append.mp hx with hx | hx
  · exact hitems x hx
  · exact List.mem_singleton.mp hx ▸ hv

/-- A value of the type becomes the entry of a node of the owning class. -/
theorem write (h : TypedBy start log t) (hr : r.node? = some n) (hn : n.isA start.owner = true)
    (hv : start.type.admits v = true) :
    TypedBy start (log ++ [⟨r, .ok ()⟩]) { t with entries := t.entries.insert n.id v } where
  name := h.name
  owner := h.owner
  type := h.type
  admitted id u hu := by
    rw [OrderedMap.get?_insert] at hu
    by_cases hid : id = n.id
    · rw [if_pos hid] at hu
      cases hu
      exact hv
    · rw [if_neg hid] at hu
      exact h.admitted id u hu
  written id u hu := by
    rw [OrderedMap.get?_insert] at hu
    by_cases hid : id = n.id
    · exact ⟨⟨r, .ok ()⟩, by simp, n, ⟨rfl, hr⟩, hid.symm⟩
    · rw [if_neg hid] at hu
      obtain ⟨a, ha, hwrote⟩ := h.written id u hu
      exact ⟨a, List.mem_append_left _ ha, hwrote⟩
  owned a ha m hm := by
    rcases List.mem_append.mp ha with ha | ha
    · exact h.owned a ha m hm
    · obtain rfl := List.mem_singleton.mp ha
      cases hr.symm.trans hm.2
      exact hn

/-- An answer that wrote nothing. -/
theorem quiet (h : TypedBy start log t) {a : Answer} (ha : ∀ n, ¬a.Wrote n) : TypedBy start (log ++ [a]) t where
  name := h.name
  owner := h.owner
  type := h.type
  admitted := h.admitted
  written id v hv := by
    obtain ⟨b, hb, hwrote⟩ := h.written id v hv
    exact ⟨b, List.mem_append_left _ hb, hwrote⟩
  owned b hb n hn := by
    rcases List.mem_append.mp hb with hb | hb
    · exact h.owned b hb n hn
    · exact (ha n (List.mem_singleton.mp hb ▸ hn)).elim

/-- The step. -/
theorem done (h : TypedBy start log t) (hdone : Done r t t') : TypedBy start (log ++ [⟨r, .ok ()⟩]) t' := by
  cases hdone with
  | set hset =>
    obtain ⟨hn, hv, -, rfl⟩ := set_inv hset
    exact h.write rfl (h.owner ▸ hn) (h.type ▸ hv)
  | @added _ _ n v hadd =>
    obtain ⟨hn, ⟨item, hitem, hv⟩, -, rfl⟩ := add_inv hadd
    obtain ⟨-, -, -, happended⟩ := h.appended_eq_list n.id hitem hv
    exact h.write rfl (h.owner ▸ hn) happended
  | locked =>
    obtain ⟨hname, howner, htype, hadmitted, hwritten, howned⟩ := h.quiet (a := ⟨.lock, .ok ()⟩) fun n hn => by cases hn.2
    exact ⟨hname, howner, htype, hadmitted, hwritten, howned⟩

/-- An item that is added goes to the end of the list that the entry is; it is empty if there was none. -/
theorem pushed (h : TypedBy start log t) {w w' : Workspace} (hrun : edited (InPlace.push n v) t w = ((.ok (), t'), w')) :
    ∃ items, (t.entries.insertNew n.id (.list [])).get? n.id = some (.list items) ∧
      t'.entries.get? n.id = some (.list (items ++ [v])) := by
  rcases (push_settles n v t).ended hrun with ⟨-, hadd⟩ | ⟨⟨e, he⟩, -⟩
  · obtain ⟨-, ⟨item, hitem, hv⟩, -, rfl⟩ := add_inv hadd
    obtain ⟨items, hbefore, hafter, -⟩ := h.appended_eq_list n.id hitem hv
    refine ⟨items, ?_, ?_⟩
    · rw [OrderedMap.get?_insertNew_self, hbefore]
    · rw [OrderedMap.get?_insert, if_pos rfl, hafter]
  · cases he

/-- In a table of lists of nodes all items of an entry are nodes, so all are read. -/
theorem getNodes_eq (h : TypedBy start log t) {cls : String} (htype : start.type = .list (.node cls))
    (hn : n.isA start.owner = true) :
    ∃ ns, t.get n = .ok (.nodeList ns) ∧ t.getNodes n = .ok ns ∧ ∀ c ∈ ns, c.isA cls = true := by
  have hread : ∃ ns, t.get n = .ok (.nodeList ns) ∧ ∀ c ∈ ns, c.isA cls = true := by
    have hn' : n.isA t.owner = true := h.owner ▸ hn
    cases hentry : t.entries.get? n.id with
    | none =>
      refine ⟨[], ?_, by simp⟩
      rw [get_of_no_entry hn' hentry, h.type, htype]
      rfl
    | some v =>
      obtain ⟨ns, rfl, hns⟩ := FieldType.admits_nodes_iff.mp (htype ▸ h.admitted _ _ hentry)
      exact ⟨ns, get_of_entry hn' hentry, hns⟩
  obtain ⟨ns, hget, hns⟩ := hread
  refine ⟨ns, hget, ?_, hns⟩
  rw [getNodes, hget]
  exact congrArg Except.ok (Node.nodes_nodeList ns)

end TypedBy

namespace Served
variable {name owner : String} {type : FieldType} {start t : Table} {log : List Answer}

/-- The run. -/
theorem typedBy (h : Served (.create name owner type) log t) : TypedBy (.create name owner type) log t := by
  induction h with
  | none => exact ⟨rfl, rfl, rfl, by simp [create], by simp [create], by simp⟩
  | next _ _ h ih =>
    rcases Request.ended h with ⟨rfl, hdone⟩ | ⟨⟨e, rfl⟩, rfl⟩
    · exact ih.done hdone
    · exact ih.quiet fun n hn => by cases hn.1

/-- Whatever is asked of a table from its creation on, its entries have its type and were written through nodes of the
    owning class, and through no others. In a table of lists every entry is a list of items of the type, an item is only
    ever added to such a list, and of a list of nodes all are read. -/
theorem entries_typed (h : Served (.create name owner type) log t) :
    (t.name = name ∧ t.owner = owner ∧ t.type = type) ∧
      (∀ id v, t.entries.get? id = some v →
        type.admits v = true ∧ ∃ a ∈ log, ∃ n, a.Wrote n ∧ n.id = id ∧ n.isA owner = true) ∧
      (∀ a ∈ log, ∀ n, a.Wrote n → n.isA owner = true) ∧
      (∀ item, type = .list item → ∀ id v, t.entries.get? id = some v →
        ∃ items, v = .list items ∧ ∀ x ∈ items, item.admits x = true) ∧
      (∀ n v w t' w', edited (InPlace.push n v) t w = ((.ok (), t'), w') →
        ∃ items, (t.entries.insertNew n.id (.list [])).get? n.id = some (.list items) ∧
          t'.entries.get? n.id = some (.list (items ++ [v]))) ∧
      ∀ cls, type = .list (.node cls) → ∀ n, n.isA owner = true →
        ∃ ns, t.get n = .ok (.nodeList ns) ∧ t.getNodes n = .ok ns ∧ ∀ c ∈ ns, c.isA cls = true := by
  have htyped := h.typedBy
  refine ⟨⟨htyped.name, htyped.owner, htyped.type⟩, fun id v hv => ⟨htyped.admitted id v hv, ?_⟩, htyped.owned, ?_, ?_, ?_⟩
  · obtain ⟨a, ha, n, hwrote, hid⟩ := htyped.written id v hv
    exact ⟨a, ha, n, hwrote, hid, htyped.owned a ha n hwrote⟩
  · exact fun item hitem id v hv => FieldType.admits_list_iff.mp (hitem ▸ htyped.admitted id v hv)
  · exact fun n v w t' w' hrun => htyped.pushed hrun
  · exact fun cls hcls n hn => htyped.getNodes_eq hcls hn

end Served

section Rooms

/-- A list of rooms for every place. -/
def neighbours : Table := .create "neighbours" "Place" (.list (.node "Room"))

def neighboursAfter (rooms : List Node) : Table :=
  { neighbours with entries := OrderedMap.empty.insertNew 1 (.nodeList rooms) }

/-- The neighbours of a room are set, one more is added, but no number. -/
def neighboursLog : List Answer :=
  [⟨.set (room 1) (.nodeList [room 2]), .ok ()⟩, ⟨.add (room 1) (.node (room 3)), .ok ()⟩,
    ⟨.add (room 1) (.int 4), .error (.metadata (.valueType "neighbours" "Room" "Int"))⟩]

/-- The neighbours were written through a place, the second one to the end of the list with the first, and are read as
    they are stored. -/
theorem Served.entries_typed_neighbours :
    Served neighbours neighboursLog (neighboursAfter [room 2, room 3]) ∧
      (∃ a ∈ neighboursLog, ∃ n, a.Wrote n ∧ n.id = 1 ∧ n.isA "Place" = true) ∧
      (∃ items, (neighboursAfter [room 2]).entries.get? 1 = some (.list items) ∧
        (neighboursAfter [room 2, room 3]).entries.get? 1 = some (.list (items ++ [.node (room 3)]))) ∧
      ∃ ns, (neighboursAfter [room 2, room 3]).get (room 1) = .ok (.nodeList ns) ∧
        (neighboursAfter [room 2, room 3]).getNodes (room 1) = .ok ns := by
  have hset : edited (InPlace.store (room 1) (.nodeList [room 2])) neighbours {} =
    ((.ok (), neighboursAfter [room 2]), {}) := rfl
  have hadd : edited (InPlace.push (room 1) (.node (room 3))) (neighboursAfter [room 2]) {} =
    ((.ok (), neighboursAfter [room 2, room 3]), {}) := rfl
  have hrefused : edited (InPlace.push (room 1) (.int 4)) (neighboursAfter [room 2, room 3]) {} =
    ((.error (.metadata (.valueType "neighbours" "Room" "Int")), neighboursAfter [room 2, room 3]), {}) := rfl
  have hfirst : Served neighbours _ (neighboursAfter [room 2]) := .next (.set _ _) .none hset
  have hall : Served neighbours neighboursLog (neighboursAfter [room 2, room 3]) :=
    .next (.add _ _) (.next (.add _ _) hfirst hadd) hrefused
  obtain ⟨-, -, -, -, hpushed, -⟩ := hfirst.entries_typed
  obtain ⟨-, hentries, -, -, -, hnodes⟩ := hall.entries_typed
  obtain ⟨ns, hget, hread, -⟩ := hnodes "Room" rfl (room 1) rfl
  exact ⟨hall, (hentries 1 _ rfl).2, hpushed _ _ _ _ _ hadd, ns, hget, hread⟩

end Rooms

end Table
end Metadata
end TypedTree
